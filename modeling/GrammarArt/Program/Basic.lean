import GrammarArt.Tree.Eval

/-! # Register programs

A tree can be flattened into a list of instructions, one for each node, children before
their parents.  Instruction `i` writes register `i`; its operands are the registers of the
node's children, so every register is written once and before it is read, and the last one
holds the value of the tree.  The parameters of all nodes stand in one list, each
instruction having a range of it.

`Program.evalBy` runs a program with any function of kinds, parameters and arguments, as
`Tree.evalBy` evaluates a tree.
-/
namespace GrammarArt

/-- One instruction: what to compute, from which parameters and which registers. -/
structure Instruction where
  kind : Kind
  /-- The place of its first parameter in the list of all parameters. -/
  first : Nat
  /-- The place behind its last parameter. -/
  stop : Nat
  operands : List Nat
  deriving DecidableEq, Repr

/-- A list of instructions and the parameters they share. -/
structure Program where
  instructions : Array Instruction
  parameters : Array Float32
  deriving DecidableEq, Repr

namespace Program

/-- The program that does nothing. -/
def empty : Program := ⟨#[], #[]⟩

/-- The number of instructions. -/
def size (program : Program) : Nat := program.instructions.size

/-- The register that the last instruction writes. -/
def result (program : Program) : Nat := program.size - 1

/-- Whether some instruction depends on the feed. -/
def readsVariables (program : Program) : Bool :=
  program.instructions.any fun i => i.kind.readsVariables

/-- A program with one more instruction, which has its parameters behind all others. -/
def push (program : Program) (kind : Kind) (parameters : List Float32) (operands : List Nat) :
    Program where
  instructions := program.instructions.push
    ⟨kind, program.parameters.size, program.parameters.size + parameters.length, operands⟩
  parameters := program.parameters ++ parameters

/-- The parameters of an instruction. -/
def parametersOf (program : Program) (i : Instruction) : List Float32 :=
  (program.parameters.extract i.first i.stop).toList

variable {α : Type} [Inhabited α]

/-- The registers after one more instruction. -/
def execute (f : Kind → List Float32 → List α → α) (program : Program) (registers : Array α)
    (i : Instruction) : Array α :=
  registers.push (f i.kind (program.parametersOf i) (i.operands.map (registers.getD · default)))

/-- The registers after all instructions. -/
def registers (f : Kind → List Float32 → List α → α) (program : Program) : Array α :=
  program.instructions.foldl (execute f program) #[]

/-- The value in the last register. -/
def evalBy (f : Kind → List Float32 → List α → α) (program : Program) : α :=
  (program.registers f).back?.getD default

/-- The value in the last register, and all registers, for which a given array is used.  What
the array held before is dropped. -/
def evalIn (scratch : Array α) (f : Kind → List Float32 → List α → α) (program : Program) :
    α × Array α :=
  let registers := program.instructions.foldl (execute f program) (scratch.take 0)
  (registers.back?.getD default, registers)

theorem evalIn_fst (scratch : Array α) (f : Kind → List Float32 → List α → α)
    (program : Program) : (program.evalIn scratch f).1 = program.evalBy f := by
  simp [evalIn, evalBy, registers]

/-- The color that a program computes at a point. -/
def eval (program : Program) (point : Point) (feed : Feed) : Color :=
  program.evalBy (combine point feed)

end Program

namespace Tree

/-- A program with the instructions of a tree behind its own. -/
def lowerOnto (program : Program) : Tree → Program
  | terminal _ op => program.push op.kind op.parameters []
  | unary _ op a =>
    let p := lowerOnto program a
    p.push op.kind op.parameters [p.result]
  | binary _ op a b =>
    let p := lowerOnto program a
    let q := lowerOnto p b
    q.push op.kind op.parameters [p.result, q.result]
  | ternary _ op a b c =>
    let p := lowerOnto program a
    let q := lowerOnto p b
    let r := lowerOnto q c
    r.push op.kind op.parameters [p.result, q.result, r.result]

/-- The program that computes the color of a tree. -/
def lower (tree : Tree) : Program := lowerOnto .empty tree

end Tree

end GrammarArt
