import Sumscript.Code.Compile

/-! # The rules by which trees become code

One rule for every kind of expression says which trees have code and what the code is. The
rules are an inversion of the translation: facts about compiled code are inductions over them.
-/

namespace Sumscript.Node

/-- Induction on a tree in which all children of a node may be assumed. -/
theorem induction {motive : Node → Prop}
    (step : ∀ kind name children, (∀ child ∈ children, motive child) →
      motive ⟨kind, name, children⟩) (node : Node) : motive node := by
  refine Node.rec (motive_1 := motive)
    (motive_2 := fun children => ∀ child ∈ children, motive child)
    (fun kind name children ih => step kind name children ih) (by simp) ?_ node
  intro child children hchild hchildren other hother
  rcases List.mem_cons.mp hother with rfl | hrest
  · exact hchild
  · exact hchildren other hrest

mutual

/-- An expression with code that leaves its value on the stack. -/
inductive Lowered : Node → Code → Prop where
  | literal {text value} (hvalue : Numeral.int64? text.toList = some value) :
      Lowered ⟨.literal, text, []⟩ [.const value]
  | variable {name} : Lowered ⟨.variable, name, []⟩ [.load name]
  | unop {operand code} (hoperand : Lowered operand code) :
      Lowered ⟨.unop, plus, [operand]⟩ code
  | binop {left right leftCode rightCode} (hright : Lowered right rightCode)
      (hleft : Lowered left leftCode) :
      Lowered ⟨.binop, plus, [left, right]⟩ (rightCode ++ leftCode ++ [.add])
  | assign {name target value code} (htarget : target.kind = .variable)
      (hvalue : Lowered value code) :
      Lowered ⟨.assign, name, [target, value]⟩ (code ++ [.store target.name])
  | call {name arguments code} (harguments : LoweredArguments arguments code) :
      Lowered ⟨.call, name, arguments⟩ (code ++ [.call name arguments.length])

/-- Arguments with code that leaves their values on the stack, the first one on top. -/
inductive LoweredArguments : List Node → Code → Prop where
  | nil : LoweredArguments [] []
  | cons {argument later ownCode laterCode} (hlater : LoweredArguments later laterCode)
      (hargument : Lowered argument ownCode) :
      LoweredArguments (argument :: later) (laterCode ++ ownCode)

end

/-- Statements with code that runs each of them and drops its value. -/
inductive LoweredStatements : List Node → Code → Prop where
  | nil : LoweredStatements [] []
  | cons {statement rest ownCode restCode} (hstatement : Lowered statement ownCode)
      (hrest : LoweredStatements rest restCode) :
      LoweredStatements (statement :: rest) (ownCode ++ .discard :: restCode)

theorem bind_eq_ok_iff {ε α β : Type} (first : Except ε α) (next : α → Except ε β) (result : β) :
    first >>= next = .ok result ↔ ∃ a, first = .ok a ∧ next a = .ok result := by
  cases first <;> simp [bind, Except.bind]

theorem loweredArguments_of_code {arguments : List Node} {code : Code}
    (hargument : ∀ argument ∈ arguments, ∀ own, argument.code = .ok own → Lowered argument own)
    (hcode : argumentsCode arguments = .ok code) : LoweredArguments arguments code := by
  induction arguments generalizing code with
  | nil =>
      cases hcode
      exact .nil
  | cons argument later ih =>
      simp only [argumentsCode, bind_eq_ok_iff] at hcode
      obtain ⟨laterCode, hlater, ownCode, hown, hcode⟩ := hcode
      cases hcode
      refine .cons (ih ?_ hlater) (hargument argument List.mem_cons_self ownCode hown)
      exact fun other hother => hargument other (List.mem_cons_of_mem _ hother)

theorem lowered_of_code {node : Node} {code : Code} (hcode : node.code = .ok code) :
    Lowered node code := by
  induction node using Node.induction generalizing code with
  | step kind name children ih =>
      cases kind with
      | root => cases hcode
      | assign =>
          match children with
          | [] | [_] | _ :: _ :: _ :: _ => cases hcode
          | [target, value] =>
              rw [Node.code] at hcode
              split at hcode
              next htarget =>
                obtain ⟨own, hown, hcode⟩ := (bind_eq_ok_iff _ _ _).mp hcode
                cases hcode
                exact .assign htarget (ih value (by simp) hown)
              next => cases hcode
      | literal =>
          match children with
          | _ :: _ => cases hcode
          | [] =>
              rw [Node.code] at hcode
              split at hcode
              next hvalue => cases hcode; exact .literal hvalue
              next => cases hcode
      | «variable» =>
          match children with
          | _ :: _ => cases hcode
          | [] => cases hcode; exact .variable
      | unop =>
          match children with
          | [] | _ :: _ :: _ => simp only [Node.code] at hcode; split at hcode <;> cases hcode
          | [operand] =>
              rw [Node.code] at hcode
              split at hcode
              next hop => subst hop; exact .unop (ih operand (by simp) hcode)
              next => cases hcode
      | binop =>
          match children with
          | [] | [_] | _ :: _ :: _ :: _ =>
              simp only [Node.code] at hcode; split at hcode <;> cases hcode
          | [left, right] =>
              rw [Node.code] at hcode
              split at hcode
              next hop =>
                subst hop
                simp only [bind_eq_ok_iff] at hcode
                obtain ⟨rightCode, hright, leftCode, hleft, hcode⟩ := hcode
                cases hcode
                exact .binop (ih right (by simp) hright) (ih left (by simp) hleft)
              next => cases hcode
      | call =>
          rw [Node.code] at hcode
          obtain ⟨own, hown, hcode⟩ := (bind_eq_ok_iff _ _ _).mp hcode
          cases hcode
          exact .call (loweredArguments_of_code (fun argument hargument _ => ih argument hargument)
            hown)

theorem loweredStatements_of_statementsCode {statements : List Node} {code : Code}
    (hcode : statementsCode statements = .ok code) : LoweredStatements statements code := by
  induction statements generalizing code with
  | nil =>
      cases hcode
      exact .nil
  | cons statement rest ih =>
      simp only [statementsCode, bind_eq_ok_iff] at hcode
      obtain ⟨own, hown, others, hothers, hcode⟩ := hcode
      cases hcode
      exact .cons (lowered_of_code hown) (ih hothers)

/-- A tree has code only if it is a root whose statements have code. -/
theorem loweredStatements_of_compile {program : Node} {code : Code}
    (hcompile : program.compile = .ok code) :
    program.kind = .root ∧ LoweredStatements program.children code := by
  rw [compile] at hcompile
  split at hcompile
  next hroot => exact ⟨hroot, loweredStatements_of_statementsCode hcompile⟩
  next => cases hcompile

end Sumscript.Node
