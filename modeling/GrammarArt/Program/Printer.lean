import GrammarArt.Binary32.Printer
import GrammarArt.Program.Basic

/-! # The listing of a program

A program is listed as its instructions, the parameters they share and whether it depends
on the feed.  An instruction always lists three operands; those it does not have are listed
as register zero.
-/
namespace GrammarArt

/-- The tag of a variable in listings. -/
def Variable.tag : Variable → String
  | low => "Low"
  | mid => "Mid"
  | hi => "Hi"
  | subBass => "SubBass"
  | bass => "Bass"
  | lowMidrange => "LowMidrange"
  | midrange => "Midrange"
  | upperMidrange => "UpperMidrange"
  | presence => "Presence"
  | brilliance => "Brilliance"

/-- The tag of a kind in listings. -/
def Kind.tag : Kind → String
  | x => "X"
  | y => "Y"
  | t => "T"
  | bw => "Bw"
  | rgb => "Rgb"
  | var v => s!"Var({v.tag})"
  | sin => "Sin"
  | cos => "Cos"
  | tan => "Tan"
  | exp => "Exp"
  | sqrt => "Sqrt"
  | sum => "Sum"
  | mult => "Mult"
  | mod => "Mod"
  | mix => "Mix"
  | level => "Level"
  | triple => "Triple"

/-- The listing of an instruction. -/
def Instruction.listing (i : Instruction) : String :=
  let operand := fun n => s!"Slot({i.operands.getD n 0})"
  "Op \x7b kind: " ++ i.kind.tag ++ s!", params: ({i.first}, {i.stop})"
    ++ s!", args: [{operand 0}, {operand 1}, {operand 2}], argc: {i.operands.length}" ++ " \x7d"

/-- The listing of a program. -/
def Program.listing (program : Program) : String :=
  let instructions := program.instructions.toList.map Instruction.listing
  let parameters := program.parameters.toList.map (Binary32.print Binary32.literal)
  "Program \x7b ops: [" ++ ", ".intercalate instructions
    ++ "], params: [" ++ ", ".intercalate parameters
    ++ s!"], reads_variables: {program.readsVariables}" ++ " \x7d"

end GrammarArt
