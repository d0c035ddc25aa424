import ScriptVm.Bytecode.Blueprint

/-!
# Sample programs

Small programs that the command line can run, written down as bytecode. Each shows one part of
the machine: recursion, captured variables, iteration, classes, and caught and uncaught throws.
-/

set_option autoImplicit false

namespace ScriptVm.Cli

/-- An instruction on a source line. -/
def ins (line : Nat) (op : OpCode) (a : UInt16 := 0) (b : UInt16 := 0) : Instruction × Nat :=
  (⟨op, a, b⟩, line)

/-- A text constant. -/
def word (s : String) : ConstantPlan := .plain (.text s)

/-- An integer constant. -/
def number (n : Int64) : ConstantPlan := .plain (.int n)

/-- A script. -/
def script (constants : List ConstantPlan) (code : List (Instruction × Nat)) : Blueprint :=
  .function [] 0 0 [] [] constants code

/-- A function without optional parameters. -/
def function (name : String) (params : List Text) (constants : List ConstantPlan)
    (code : List (Instruction × Nat)) : ConstantPlan :=
  .function (.function name params.length 0 params [] constants code)

/-- Prints the twentieth Fibonacci number. -/
def fib : Blueprint :=
  script
    [function "fib" ["n"] [number 2, word "fib", number 1, number 2]
      [ins 1 .getLocal 1, ins 1 .constant 0, ins 1 .less, ins 1 .jumpIfFalse 2, ins 1 .getLocal 1,
       ins 1 .ret, ins 2 .getGlobal 1, ins 2 .getLocal 1, ins 2 .constant 2, ins 2 .subtract,
       ins 2 .call 1, ins 2 .getGlobal 1, ins 2 .getLocal 1, ins 2 .constant 3, ins 2 .subtract,
       ins 2 .call 1, ins 2 .add, ins 2 .ret],
     word "fib", number 20]
    [ins 1 .closure 0, ins 1 .defineGlobal 1, ins 4 .getGlobal 1, ins 4 .constant 2,
     ins 4 .call 1, ins 4 .print 1, ins 4 .pop]

/-- Calls a counter twice and prints the second count. -/
def counter : Blueprint :=
  script
    [function "make_counter" []
      [number 0,
       .function (.function "inc" 0 0 [] [⟨true, 1⟩] [number 1]
         [ins 2 .getUpvalue 0, ins 2 .constant 0, ins 2 .add, ins 2 .setUpvalue 0, ins 2 .ret])]
      [ins 1 .constant 0, ins 2 .closure 1, ins 3 .ret],
     word "counter"]
    [ins 1 .closure 0, ins 4 .call 0, ins 4 .defineGlobal 1, ins 5 .getGlobal 1, ins 5 .call 0,
     ins 5 .pop, ins 5 .getGlobal 1, ins 5 .call 0, ins 5 .print 1, ins 5 .pop]

/-- Prints the sum of the numbers from 1 to 10. -/
def loop : Blueprint :=
  script
    [number 0, number 1, number 10]
    [ins 1 .constant 0, ins 2 .constant 1, ins 2 .constant 2, ins 2 .range, ins 2 .getIter,
     ins 2 .forIter 5, ins 3 .getLocal 1, ins 3 .add, ins 3 .setLocal 1, ins 3 .pop, ins 3 .loop 6,
     ins 4 .getLocal 1, ins 4 .print 1, ins 4 .pop]

/-- A class with a subclass whose method calls the one it overrides. -/
def classes : Blueprint :=
  script
    [word "Shape",
     function "init" ["name"] [word "name"]
      [ins 1 .getThis, ins 1 .getLocal 1, ins 1 .setProperty 0, ins 1 .pop],
     word "init",
     function "describe" [] [word "Shape ", word "name"]
      [ins 2 .constant 0, ins 2 .getThis, ins 2 .getProperty 1, ins 2 .add, ins 2 .ret],
     word "describe", word "Square", number 1, word "side",
     function "describe" [] [word "describe", word " of side ", word "side"]
      [ins 5 .getThis, ins 5 .getSuper 0, ins 5 .call 0, ins 5 .constant 1, ins 5 .add,
       ins 5 .getThis, ins 5 .getProperty 2, ins 5 .add, ins 5 .ret],
     word "square"]
    [ins 1 .newClass 0, ins 1 .closure 1, ins 1 .method 2, ins 2 .closure 3, ins 2 .method 4,
     ins 2 .defineGlobal 0, ins 4 .newClass 5, ins 4 .getGlobal 0, ins 4 .inherit,
     ins 4 .constant 6, ins 4 .field 7, ins 5 .closure 8, ins 5 .method 4, ins 5 .defineGlobal 5,
     ins 7 .getGlobal 5, ins 7 .constant 9, ins 7 .new 1, ins 7 .getProperty 4, ins 7 .call 0,
     ins 7 .print 1, ins 7 .pop]

/-- Catches a throw. -/
def caught : Blueprint :=
  script
    [word "boom", word "caught: "]
    [ins 1 .tryBegin 4, ins 2 .constant 0, ins 2 .throwTop, ins 3 .tryEnd, ins 3 .jump 6,
     ins 4 .constant 1, ins 4 .getLocal 1, ins 4 .add, ins 4 .print 1, ins 4 .pop, ins 4 .pop]

/-- Throws out of a function that nobody protects. -/
def uncaught : Blueprint :=
  script
    [function "fail" [] [word "boom"] [ins 2 .constant 0, ins 2 .throwTop], word "fail"]
    [ins 1 .closure 0, ins 1 .defineGlobal 1, ins 4 .getGlobal 1, ins 4 .call 0, ins 4 .pop]

/-- The samples by name, in byte order. -/
def samples : List (Text × Blueprint) :=
  [("classes", classes), ("counter", counter), ("fib", fib), ("loop", loop), ("try", caught),
   ("uncaught", uncaught)]

end ScriptVm.Cli
