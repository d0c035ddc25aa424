import ScriptVm.Bytecode.Chunk

/-!
# Blueprints

A blueprint is a function prototype that has no number yet. Building it numbers the function
first and then, from left to right, the functions among its constants. Constants that are
listed twice take two places, texts excepted.
-/

set_option autoImplicit false

namespace ScriptVm

mutual

/-- A function without a number. -/
inductive Blueprint where
  | function (name : Text) (arity defaults : Nat) (params : List Text) (captures : List Capture)
      (constants : List ConstantPlan) (code : List (Instruction × Nat))

/-- A constant of a blueprint. -/
inductive ConstantPlan where
  | plain (k : Constant)
  | function (b : Blueprint)

end

instance : Inhabited Blueprint := ⟨.function [] 0 0 [] [] [] []⟩

/-- The chunk with instructions and their lines added. -/
def Chunk.withCode (c : Code) (code : List (Instruction × Nat)) : Code :=
  code.foldl (fun c i => (c.emit i.1 i.2).2) c

mutual

/-- Builds a function. `next` is the next free number, before and after. -/
def Blueprint.build (next : Nat) : Blueprint → Proto × Nat
  | .function name arity defaults params captures constants code =>
    let (chunk, after) := addPlans (next + 1) {} constants
    ({ id := next, name, arity, defaults, params, captures, chunk := chunk.withCode code }, after)

/-- Adds the constants of a blueprint to a chunk. -/
def addPlans (next : Nat) (c : Code) : List ConstantPlan → Code × Nat
  | [] => (c, next)
  | plan :: rest =>
    let (k, next) := ConstantPlan.build next plan
    addPlans next (c.addConstant k).2 rest

/-- Builds a constant. -/
def ConstantPlan.build (next : Nat) : ConstantPlan → Constant × Nat
  | .plain k => (k, next)
  | .function b =>
    let (p, next) := Blueprint.build next b
    (.function p, next)

end

end ScriptVm
