import FoolLang.Assembly.Instr
import FoolLang.Text.Decimal
/-!
# Code — assembly with labels

Generated code is a list of lines, each an instruction or the definition of a label.  There are two families of
labels, numbered apart: the targets of branches and the entries of routines.
-/
namespace FoolLang

inductive Label
  | branch (n : Nat)
  | routine (n : Nat)
  deriving DecidableEq

inductive Line
  | define (l : Label)
  | push (n : Int)
  | pushLabel (l : Label)
  | branch (b : Branch) (l : Label)
  | op (o : Op)
  deriving DecidableEq

abbrev Code := List Line

def Label.text : Label → List Char
  | .branch n => "label".toList ++ Text.decimal n
  | .routine n => "function".toList ++ Text.decimal n

def Line.text : Line → List Char
  | .define l => l.text ++ ":".toList
  | .push n => "push ".toList ++ Text.signedDecimal n
  | .pushLabel l => "push ".toList ++ l.text
  | .branch b l => b.mnemonic ++ ' ' :: l.text
  | .op o => o.mnemonic

/-- Code as text, a line to a line. -/
def Code.text (code : Code) : List Char := code.flatMap fun l => l.text ++ ['\n']

end FoolLang
