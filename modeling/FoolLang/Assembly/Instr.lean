/-!
# Instr — the instructions of the stack machine

Most instructions are operations without an operand; `push` takes a number, and a branch takes the index of the
instruction it goes to.
-/
namespace FoolLang

/-- An instruction without an operand. -/
inductive Op
  | pop | add | sub | mult | div
  /-- Pops an address, then a value, and stores the value there. -/
  | sw
  /-- Pops an address and pushes the value stored there. -/
  | lw
  /-- Pops an address and goes there, keeping the return address. -/
  | js
  | lra | sra | ltm | stm | lfp | sfp | cfp | lhp | shp
  | print | halt
  deriving DecidableEq

/-- When a branch is taken. -/
inductive Branch
  | always | ifEqual | ifLessEq
  deriving DecidableEq

inductive Instr
  | push (v : Int32)
  | branch (b : Branch) (target : Nat)
  | op (o : Op)
  deriving DecidableEq

namespace Op

def all : List Op :=
  [pop, add, sub, mult, div, sw, lw, js, lra, sra, ltm, stm, lfp, sfp, cfp, lhp, shp, print, halt]

def mnemonic : Op → List Char
  | pop => "pop".toList | add => "add".toList | sub => "sub".toList | mult => "mult".toList | div => "div".toList
  | sw => "sw".toList | lw => "lw".toList | js => "js".toList | lra => "lra".toList | sra => "sra".toList
  | ltm => "ltm".toList | stm => "stm".toList | lfp => "lfp".toList | sfp => "sfp".toList | cfp => "cfp".toList
  | lhp => "lhp".toList | shp => "shp".toList | print => "print".toList | halt => "halt".toList

end Op

namespace Branch

def all : List Branch := [always, ifEqual, ifLessEq]

def mnemonic : Branch → List Char
  | always => "b".toList | ifEqual => "beq".toList | ifLessEq => "bleq".toList

end Branch

/-- The mnemonic of `push`. -/
def Instr.pushMnemonic : List Char := "push".toList

end FoolLang
