import Sumscript.Native.Generate
import Sumscript.Proofs.StackHeight
import Sumscript.Proofs.WrittenForm

/-! # Code of program trees

The code of a program tree holds only instructions whose variables are identifiers, and every
instruction finds on the stack what it needs.
-/

namespace Sumscript

namespace Code

/-- Code that starts at a height finds on the stack what each of its instructions needs. -/
def SuppliedFrom (height : Int) : Code → Prop
  | [] => True
  | i :: rest => i.needs ≤ height ∧ SuppliedFrom (height + i.effect) rest

theorem suppliedFrom_append (height : Int) (first second : Code) :
    SuppliedFrom height (first ++ second) ↔
      SuppliedFrom height first ∧ SuppliedFrom (height + effect first) second := by
  induction first generalizing height with
  | nil => simp [SuppliedFrom]
  | cons i rest ih =>
      simp only [List.cons_append, SuppliedFrom, effect_cons, ih, Int.add_assoc, and_assoc]

theorem suppliedFrom_singleton {height : Int} {i : Instr} (h : i.needs ≤ height) :
    SuppliedFrom height [i] :=
  ⟨h, trivial⟩

end Code

namespace Node

theorem supplied_of_lowered {node : Node} {code : Code} (hlowered : Lowered node code) :
    ∀ {height : Int}, 0 ≤ height → code.SuppliedFrom height := by
  induction hlowered using Lowered.rec
    (motive_2 := fun _ code _ => ∀ height : Int, 0 ≤ height → code.SuppliedFrom height) with
  | literal => exact fun hheight => Code.suppliedFrom_singleton hheight
  | «variable» => exact fun hheight => Code.suppliedFrom_singleton hheight
  | unop _ ih => exact ih
  | binop hright hleft ihright ihleft =>
      intro height hheight
      rw [Code.suppliedFrom_append, Code.suppliedFrom_append, Code.effect_append,
        effect_of_lowered hright, effect_of_lowered hleft]
      -- Both operands have left a value, whatever was on the stack before.
      refine ⟨⟨ihright hheight, ihleft (by omega)⟩, Code.suppliedFrom_singleton ?_⟩
      change (2 : Int) ≤ _
      omega
  | assign _ hvalue ih =>
      intro height hheight
      rw [Code.suppliedFrom_append, effect_of_lowered hvalue]
      refine ⟨ih hheight, Code.suppliedFrom_singleton ?_⟩
      change (1 : Int) ≤ _
      omega
  | @call name arguments code harguments ih =>
      intro height hheight
      rw [Code.suppliedFrom_append, effect_of_loweredArguments harguments]
      refine ⟨ih _ hheight, Code.suppliedFrom_singleton ?_⟩
      change (arguments.length : Int) ≤ _
      omega
  | nil => trivial
  | cons hlater _ ihlater ih =>
      rename_i height hheight
      rw [Code.suppliedFrom_append, effect_of_loweredArguments hlater]
      exact ⟨ihlater height hheight, ih (by omega)⟩

theorem supplied_of_loweredStatements {statements : List Node} {code : Code}
    (hlowered : LoweredStatements statements code) : code.SuppliedFrom 0 := by
  induction hlowered with
  | nil => trivial
  | cons hstatement _ ih =>
      rw [Code.suppliedFrom_append, effect_of_lowered hstatement]
      exact ⟨supplied_of_lowered hstatement (Int.le_refl 0), Int.le_refl _, ih⟩

end Node

end Sumscript
