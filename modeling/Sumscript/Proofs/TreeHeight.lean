import Sumscript.Code.Compile
import Sumscript.Proofs.JoinedPrograms
import Sumscript.Tree.Notation

/-! # How high the trees of parsed programs are

An open expression adds two nodes to a path at most, a binary operation and a call as its left
operand, and parentheses add none. So the limit on expressions that are open inside each other
bounds the height of the tree, whatever the length of the text, and with it how deep the passes
over the tree call themselves.
-/

namespace Sumscript

namespace Node

mutual

/-- The greatest number of nodes on the way from a node down to a leaf. -/
def height : Node → Nat
  | ⟨_, _, children⟩ => 1 + tallest children

/-- The height of the highest of several trees. -/
def tallest : List Node → Nat
  | [] => 0
  | node :: rest => max node.height (tallest rest)

end

/-- The nodes on a way from a node down to a leaf, each of them a child of the one before. -/
inductive Path : Node → List Node → Prop where
  | leaf {t} (hleaf : t.children = []) : Path t [t]
  | down {t child path} (hchild : child ∈ t.children) (hrest : Path child path) :
      Path t (t :: path)

theorem height_eq (t : Node) : t.height = 1 + tallest t.children := by
  cases t
  rfl

theorem height_le_tallest {t : Node} {ts : List Node} (h : t ∈ ts) : t.height ≤ tallest ts := by
  induction ts with
  | nil => cases h
  | cons first rest ih =>
      rw [tallest]
      rcases List.mem_cons.mp h with rfl | h
      · exact Nat.le_max_left _ _
      · exact Nat.le_trans (ih h) (Nat.le_max_right _ _)

theorem height_lt_of_mem {t child : Node} (h : child ∈ t.children) : child.height < t.height := by
  have := height_le_tallest h
  rw [t.height_eq]
  omega

/-- No way down is longer than the height. -/
theorem Path.length_le {t : Node} {path : List Node} (h : t.Path path) :
    path.length ≤ t.height := by
  induction h with
  | leaf =>
      rw [height_eq]
      exact Nat.le_add_right _ _
  | down hchild _ ih => exact Nat.lt_of_le_of_lt ih (height_lt_of_mem hchild)

end Node

/-! ## What an expression adds -/

/-- How high the trees of a phrase are if so many expressions are attempted inside each other in
it. -/
def Phrase.HeightWithin (n : Nat) : Phrase → Prop
  | .operand t => t.height ≤ 1 ∨ t.height ≤ 2 * n
  | .expression t => t.height + 1 ≤ 2 * n
  | .arguments ts => Node.tallest ts + 1 ≤ 2 * n
  | .call t | .statement t => t.height ≤ 2 * n

theorem Placed.heightWithin {chars : Array Char} {phrase : Phrase} {i j n : Nat}
    (h : Placed chars phrase i j n) : phrase.HeightWithin n := by
  induction h with
  | literal | «variable» => exact .inl (Nat.le_refl 1)
  | callOperand _ _ _ ih => exact .inr ih
  | parentheses _ _ _ _ _ ih => exact .inr (Nat.le_of_succ_le ih)
  | operand _ _ ih =>
      simp only [Phrase.HeightWithin] at ih ⊢
      omega
  | unop _ _ _ _ ih =>
      simp only [Phrase.HeightWithin, Node.height, Node.tallest] at ih ⊢
      omega
  | binop _ _ _ _ _ ihleft ihright =>
      simp only [Phrase.HeightWithin, Node.height, Node.tallest] at ihleft ihright ⊢
      omega
  | call _ _ _ _ _ _ _ ih =>
      simp only [Phrase.HeightWithin, Node.height] at ih ⊢
      omega
  | noArguments => exact Nat.le_succ 1
  | lastArgument _ _ _ ih =>
      simp only [Phrase.HeightWithin, Node.tallest] at ih ⊢
      omega
  | moreArguments _ _ _ _ _ ihfirst ihrest =>
      simp only [Phrase.HeightWithin, Node.tallest] at ihfirst ihrest ⊢
      omega
  | assign _ _ _ _ _ ih =>
      simp only [Phrase.HeightWithin, Node.leaf, Node.height, Node.tallest] at ih ⊢
      omega
  | callStatement _ _ _ _ ih => exact ih

theorem PlacedStatements.tallest_le {chars : Array Char} {ts : List Node} {i j n : Nat}
    (h : PlacedStatements chars ts i j n) : Node.tallest ts ≤ 2 * n := by
  induction h with
  | last hlast =>
      have hfirst := hlast.heightWithin
      simp only [Phrase.HeightWithin, Node.tallest] at hfirst ⊢
      omega
  | more hfirst _ _ ih =>
      have hfirst := hfirst.heightWithin
      simp only [Phrase.HeightWithin, Node.tallest] at hfirst ⊢
      omega

theorem height_le_of_parse {maxDepth : Nat} {chars : Array Char} {t : Node}
    (h : parse maxDepth chars = .ok t) : t.height ≤ 2 * maxDepth + 1 := by
  obtain ⟨-, hrendering⟩ := parse_sound h
  obtain ⟨i, j, n, -, hplaced, -, hnests⟩ := hrendering.exists_placed
  have hn : n ≤ maxDepth := (hrendering.parse_eq_iff hnests).mp h
  have htallest := hplaced.tallest_le
  rw [t.height_eq]
  omega

/-! ## How deep passes call themselves -/

/-- A pass over trees as what it does with a node if its results on other nodes are given. It asks
for no others than those on the children of the node. -/
structure Pass (α : Type) where
  step : (Node → α) → Node → α
  asks_children : ∀ results results' t, (∀ child ∈ t.children, results child = results' child) →
    step results t = step results' t

namespace Pass

variable {α : Type}

/-- What a pass gives if no more than so many of its calls may be open inside each other; a call
that is one too many gives anything else. -/
def within (pass : Pass α) (beyond : Node → α) : Nat → Node → α
  | 0 => beyond
  | n + 1 => pass.step (pass.within beyond n)

/-- Calls nest no deeper than the height of the tree. -/
theorem within_eq {pass : Pass α} {run : Node → α} (hrun : ∀ t, run t = pass.step run t)
    (beyond : Node → α) {n : Nat} {t : Node} (h : t.height ≤ n) :
    pass.within beyond n t = run t := by
  induction n generalizing t with
  | zero =>
      rw [t.height_eq] at h
      omega
  | succ n ih =>
      rw [hrun t]
      apply pass.asks_children
      intro child hchild
      exact ih (Nat.le_of_lt_succ (Nat.lt_of_lt_of_le (Node.height_lt_of_mem hchild) h))

end Pass

namespace Node

/-- The counting of nodes. -/
def sizePass : Pass Nat where
  step sizes t := 1 + (t.children.map sizes).foldr (· + ·) 0
  asks_children _ _ _ h := by rw [List.map_congr_left h]

theorem totalSize_eq (ts : List Node) : totalSize ts = (ts.map size).foldr (· + ·) 0 := by
  induction ts with
  | nil => rfl
  | cons t ts ih => rw [totalSize, ih, List.map_cons, List.foldr_cons]

theorem size_eq (t : Node) : t.size = sizePass.step size t := by
  cases t
  rw [size, totalSize_eq]
  rfl

/-- The writing of terms. -/
def termPass : Pass String where
  step written t :=
    applied t.kind.tag ((if t.kind.hasName then [t.name] else []) ++ t.children.map written)
  asks_children _ _ _ h := by rw [List.map_congr_left h]

theorem terms_eq (ts : List Node) : terms ts = ts.map term := by
  induction ts with
  | nil => rfl
  | cons t ts ih => rw [terms, ih, List.map_cons]

theorem term_eq (t : Node) : t.term = termPass.step term t := by
  cases t
  rw [term, terms_eq]
  rfl

/-- The lines of a family of siblings, with the lines below each of them as given. -/
def familyLines (below : Node → String → List String) (margin : String) : List Node → List String
  | [] => []
  | node :: rest =>
    (margin ++ connector rest.isEmpty ++ node.headline) ::
      (below node (margin ++ rail rest.isEmpty) ++ familyLines below margin rest)

theorem familyLines_congr {below below' : Node → String → List String} {margin : String}
    {ts : List Node} (h : ∀ t ∈ ts, below t = below' t) :
    familyLines below margin ts = familyLines below' margin ts := by
  induction ts with
  | nil => rfl
  | cons t ts ih =>
      obtain ⟨hfirst, hrest⟩ := List.forall_mem_cons.mp h
      rw [familyLines, familyLines, hfirst, ih hrest]

/-- The drawing of outlines. -/
def linesPass : Pass (String → List String) where
  step below t margin := familyLines below margin t.children
  asks_children _ _ _ h := funext fun _ => familyLines_congr h

theorem siblingLines_eq (margin : String) (ts : List Node) :
    siblingLines margin ts = familyLines (fun t margin => t.linesBelow margin) margin ts := by
  induction ts with
  | nil => rfl
  | cons t ts ih => rw [siblingLines, familyLines, ih]

theorem linesBelow_eq (t : Node) : (fun margin => linesBelow margin t) =
    linesPass.step (fun t margin => linesBelow margin t) t := by
  cases t
  funext margin
  rw [linesBelow, siblingLines_eq]
  rfl

/-- The code of arguments, with the code of each of them as given. -/
def argumentsCodeFrom (codes : Node → Except CompileError Code) :
    List Node → Except CompileError Code
  | [] => .ok []
  | argument :: later => do
    let laterCode ← argumentsCodeFrom codes later
    let ownCode ← codes argument
    return laterCode ++ ownCode

theorem argumentsCodeFrom_congr {codes codes' : Node → Except CompileError Code} {ts : List Node}
    (h : ∀ t ∈ ts, codes t = codes' t) :
    argumentsCodeFrom codes ts = argumentsCodeFrom codes' ts := by
  induction ts with
  | nil => rfl
  | cons t ts ih =>
      obtain ⟨hfirst, hrest⟩ := List.forall_mem_cons.mp h
      rw [argumentsCodeFrom, argumentsCodeFrom, hfirst, ih hrest]

theorem argumentsCode_eq (ts : List Node) : argumentsCode ts = argumentsCodeFrom code ts := by
  induction ts with
  | nil => rfl
  | cons t ts ih => rw [argumentsCode, argumentsCodeFrom, ih]

/-- The code of a node, with the code of other nodes as given. -/
def codeFrom (codes : Node → Except CompileError Code) : Node → Except CompileError Code
  | ⟨.root, _, _⟩ => .error .nestedRoot
  | ⟨.assign, _, [target, value]⟩ => do
    if target.kind = .variable then
      return (← codes value) ++ [.store target.name]
    else .error (.badTarget target.kind)
  | ⟨.assign, _, children⟩ => .error (.wrongArity .assign 2 children.length)
  | ⟨.literal, text, []⟩ =>
    match Numeral.int64? text.toList with
    | some value => .ok [.const value]
    | none => .error (.invalidLiteral text)
  | ⟨.literal, _, children⟩ => .error (.wrongArity .literal 0 children.length)
  | ⟨.variable, name, []⟩ => .ok [.load name]
  | ⟨.variable, _, children⟩ => .error (.wrongArity .variable 0 children.length)
  | ⟨.unop, op, [operand]⟩ =>
    if op = plus then codes operand else .error (.unsupportedUnop op)
  | ⟨.unop, op, children⟩ =>
    if op = plus then .error (.wrongArity .unop 1 children.length)
    else .error (.unsupportedUnop op)
  | ⟨.binop, op, [left, right]⟩ => do
    if op = plus then
      let rightCode ← codes right
      let leftCode ← codes left
      return rightCode ++ leftCode ++ [.add]
    else .error (.unsupportedBinop op)
  | ⟨.binop, op, children⟩ =>
    if op = plus then .error (.wrongArity .binop 2 children.length)
    else .error (.unsupportedBinop op)
  | ⟨.call, name, arguments⟩ => do
    return (← argumentsCodeFrom codes arguments) ++ [.call name arguments.length]

theorem codeFrom_congr {codes codes' : Node → Except CompileError Code} {t : Node}
    (h : ∀ child ∈ t.children, codes child = codes' child) :
    codeFrom codes t = codeFrom codes' t := by
  have harguments := argumentsCodeFrom_congr h
  fun_cases codeFrom codes t <;> simp_all [codeFrom]

theorem code_eq (t : Node) : t.code = codeFrom code t := by
  fun_cases codeFrom code t <;> simp_all [code, argumentsCode_eq]

/-- The translation into code. -/
def codePass : Pass (Except CompileError Code) where
  step := codeFrom
  asks_children _ _ _ := codeFrom_congr

end Node

/-- A way from the root of a parsed tree to a leaf holds at most one node more than twice the
limit on nested expressions. So counting the nodes, writing the term, drawing the outline and
translating the statements have at most so many calls open inside each other. -/
theorem parse_paths_bounded (chars : Array Char) (maxDepth : Nat) (t : Node)
    (h : parse maxDepth chars = .ok t) :
    (∀ path, t.Path path → path.length ≤ 2 * maxDepth + 1) ∧
    (∀ beyond, Node.sizePass.within beyond (2 * maxDepth + 1) t = t.size) ∧
    (∀ beyond, Node.termPass.within beyond (2 * maxDepth + 1) t = t.term) ∧
    (∀ beyond margin, Node.linesPass.within beyond (2 * maxDepth + 1) t margin =
      t.linesBelow margin) ∧
    ∀ beyond, ∀ statement ∈ t.children,
      Node.codePass.within beyond (2 * maxDepth) statement = statement.code := by
  have hheight := height_le_of_parse h
  refine ⟨fun path hpath => Nat.le_trans hpath.length_le hheight,
    fun beyond => Pass.within_eq Node.size_eq beyond hheight,
    fun beyond => Pass.within_eq Node.term_eq beyond hheight,
    fun beyond margin => ?_, fun beyond statement hstatement => ?_⟩
  · exact congrFun (Pass.within_eq Node.linesBelow_eq beyond hheight) margin
  · have hbelow := Node.height_lt_of_mem hstatement
    exact Pass.within_eq Node.code_eq beyond (by omega)

/-- Calls on the left of sums reach the bound. -/
theorem parse_paths_bounded_sumOfCalls : ∃ t,
    parse 3 "a = f(f(1) + 2) + 3".toList.toArray = .ok t ∧ t.height = 2 * 3 + 1 ∧
      ∀ path, t.Path path → path.length ≤ 2 * 3 + 1 := by
  have hheight : (parse 3 "a = f(f(1) + 2) + 3".toList.toArray).toOption.map Node.height =
      some 7 := by decide +kernel
  cases hparse : parse 3 "a = f(f(1) + 2) + 3".toList.toArray with
  | error e =>
      rw [hparse] at hheight
      cases hheight
  | ok t =>
      rw [hparse] at hheight
      exact ⟨t, rfl, Option.some.inj hheight, (parse_paths_bounded _ 3 t hparse).1⟩

end Sumscript
