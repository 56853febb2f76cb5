import Sumscript.Proofs.Lowering

/-! # Heights of the stack along code

The greatest height of code bounds the height behind every instruction, from whatever height
the code starts. Code of an expression leaves one value more than it found.
-/

namespace Sumscript

namespace Instr

@[simp] theorem effect_store (name : String) : (store name).effect = 0 := rfl

@[simp] theorem effect_load (name : String) : (load name).effect = 1 := rfl

@[simp] theorem effect_const (value : Int64) : (const value).effect = 1 := rfl

@[simp] theorem effect_add : add.effect = -1 := rfl

@[simp] theorem effect_call (name : String) (arguments : Nat) :
    (call name arguments).effect = 1 - arguments := rfl

@[simp] theorem effect_discard : discard.effect = -1 := rfl

/-- No instruction lowers the stack by more values than it asks for. -/
theorem neg_needs_le_effect (i : Instr) : -(i.needs : Int) ≤ i.effect := by
  obtain ⟨opcode, name, value, pops⟩ := i
  cases opcode <;> simp only [needs, effect, Opcode.pushes] <;> omega

end Instr

namespace Code

/-- The net change of the height of the stack over all of code. -/
def effect : Code → Int
  | [] => 0
  | i :: rest => i.effect + effect rest

@[simp] theorem effect_nil : effect [] = 0 := rfl

@[simp] theorem effect_cons (i : Instr) (rest : Code) :
    effect (i :: rest) = i.effect + effect rest := rfl

@[simp] theorem effect_append (first second : Code) :
    effect (first ++ second) = effect first + effect second := by
  induction first with
  | nil => simp
  | cons i rest ih => simp only [List.cons_append, effect_cons, ih]; omega

/-- Code that starts at a height stays within a bound behind each of its instructions. -/
def FitsFrom (bound height : Int) : Code → Prop
  | [] => True
  | i :: rest => height + i.effect ≤ bound ∧ FitsFrom bound (height + i.effect) rest

@[simp] theorem fitsFrom_nil (bound height : Int) : FitsFrom bound height [] := trivial

@[simp] theorem fitsFrom_cons (bound height : Int) (i : Instr) (rest : Code) :
    FitsFrom bound height (i :: rest) ↔
      height + i.effect ≤ bound ∧ FitsFrom bound (height + i.effect) rest := Iff.rfl

theorem fitsFrom_append (bound height : Int) (first second : Code) :
    FitsFrom bound height (first ++ second) ↔
      FitsFrom bound height first ∧ FitsFrom bound (height + effect first) second := by
  induction first generalizing height with
  | nil => simp
  | cons i rest ih =>
      simp only [List.cons_append, fitsFrom_cons, effect_cons, ih, Int.add_assoc, and_assoc]

theorem fitsFrom_shift (bound height shift : Int) (code : Code) :
    FitsFrom (bound + shift) (height + shift) code ↔ FitsFrom bound height code := by
  induction code generalizing height with
  | nil => simp
  | cons i rest ih =>
      have hheight : height + shift + i.effect = height + i.effect + shift := by omega
      rw [fitsFrom_cons, fitsFrom_cons, hheight, ih]
      have hbound : height + i.effect + shift ≤ bound + shift ↔ height + i.effect ≤ bound := by
        omega
      rw [hbound]

theorem FitsFrom.mono {bound larger height : Int} {code : Code}
    (hfits : FitsFrom bound height code) (hle : bound ≤ larger) :
    FitsFrom larger height code := by
  induction code generalizing height with
  | nil => trivial
  | cons i rest ih => exact ⟨Int.le_trans hfits.1 hle, ih hfits.2⟩

/-- Code that fits keeps the bound before and behind each of its instructions. -/
theorem FitsFrom.around {bound height : Int} {first rest : Code} {i : Instr}
    (hheight : height ≤ bound) (hfits : FitsFrom bound height (first ++ i :: rest)) :
    height + effect first ≤ bound ∧ height + effect first + i.effect ≤ bound := by
  induction first generalizing height with
  | nil => simpa using ⟨hheight, hfits.1⟩
  | cons j later ih =>
      rw [effect_cons, ← Int.add_assoc]
      exact ih hfits.1 hfits.2

theorem maxHeightFrom_le_iff (height best bound : Int) (code : Code) :
    maxHeightFrom height best code ≤ bound ↔ best ≤ bound ∧ FitsFrom bound height code := by
  induction code generalizing height best with
  | nil => simp [maxHeightFrom]
  | cons i rest ih =>
      rw [maxHeightFrom, ih, fitsFrom_cons]
      constructor
      · rintro ⟨hbest, hrest⟩
        exact ⟨by omega, by omega, hrest⟩
      · rintro ⟨hbest, hfirst, hrest⟩
        exact ⟨by omega, hrest⟩

/-- The greatest height is the least bound that code keeps when it starts on an empty stack. -/
theorem maxHeight_le_iff (bound : Nat) (code : Code) :
    code.maxHeight ≤ bound ↔ FitsFrom bound 0 code := by
  rw [maxHeight, Int.toNat_le, maxHeightFrom_le_iff]
  simp

theorem fitsFrom_of_maxHeight_le {height capacity : Nat} {code : Code}
    (hcapacity : height + code.maxHeight ≤ capacity) : FitsFrom capacity height code := by
  have hown : FitsFrom code.maxHeight 0 code := (maxHeight_le_iff _ code).mp (Nat.le_refl _)
  have hshifted := (fitsFrom_shift code.maxHeight 0 height code).mpr hown
  rw [Int.zero_add] at hshifted
  exact hshifted.mono (by omega)

end Code

namespace Node

theorem effect_of_lowered {node : Node} {code : Code} (hlowered : Lowered node code) :
    code.effect = 1 := by
  induction hlowered using Lowered.rec
    (motive_2 := fun arguments code _ => code.effect = arguments.length) with
  | literal => rfl
  | «variable» => rfl
  | unop _ ih => exact ih
  | binop _ _ ihright ihleft => simp [ihright, ihleft]
  | assign _ _ ih => simp [ih]
  | call _ ih =>
      rw [Code.effect_append, ih, Code.effect_cons, Instr.effect_call, Code.effect_nil]
      omega
  | nil => rfl
  | cons _ _ ihlater ih => simp [ihlater, ih]

theorem effect_of_loweredArguments {arguments : List Node} {code : Code}
    (hlowered : LoweredArguments arguments code) : code.effect = arguments.length := by
  induction hlowered using LoweredArguments.rec (motive_1 := fun _ _ _ => True) with
  | nil => rfl
  | cons _ hargument ih => simp [ih, effect_of_lowered hargument]
  | _ => trivial

end Node

end Sumscript
