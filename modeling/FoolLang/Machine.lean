import Std.Data.TreeMap
import FoolLang.Assembly.Instr
import FoolLang.Text.Decimal
/-!
# Machine — the stack machine

One memory of 32-bit cells holds the stack, which grows down from the top, and the heap, which grows up from
address 0.  An instruction that completes must leave them apart.  A fault leaves the machine as it was when the fault
arose: what the instruction had popped stays popped, and the instruction counts as executed.
-/
namespace FoolLang

/-- Cells addressed from 0, all zero at first. -/
structure Memory where
  size : Nat
  cells : Std.TreeMap Nat Int32

namespace Memory

def zeros (size : Nat) : Memory := ⟨size, ∅⟩

/-- The cell at an address, if the address is inside. -/
def get? (m : Memory) (a : Nat) : Option Int32 := if a < m.size then some (m.cells.getD a 0) else none

/-- Stores a value; the address is inside. -/
def set (m : Memory) (a : Nat) (v : Int32) : Memory := { m with cells := m.cells.insert a v }

theorem get?_set (m : Memory) (a b : Nat) (v : Int32) :
    (m.set a v).get? b = if b < m.size then (if a = b then some v else m.get? b) else none := by
  unfold get? set
  by_cases hb : b < m.size
  · by_cases hab : a = b <;> simp [hb, hab, Std.TreeMap.getD_insert]
  · simp [hb]

theorem get?_isSome (m : Memory) (a : Nat) : (m.get? a).isSome = decide (a < m.size) := by
  unfold get?
  split <;> simp [*]

end Memory

/-- Why a machine stops before `halt`, with the index of the instruction. -/
inductive Fault
  | outOfMemory (ip : Nat)
  | stackUnderflow (ip : Nat)
  | divisionByZero (ip : Nat)
  | invalidAddress (address : Int32) (ip : Nat)
  | invalidJump (address : Int32) (ip : Nat)
  | missingHalt
  deriving DecidableEq

namespace Fault

def message : Fault → String
  | outOfMemory ip => s!"out of memory at instruction {ip}"
  | stackUnderflow ip => s!"stack underflow at instruction {ip}"
  | divisionByZero ip => s!"division by zero at instruction {ip}"
  | invalidAddress address ip =>
    let a := address.toInt
    s!"invalid memory address {a} at instruction {ip}"
  | invalidJump address ip =>
    let a := address.toInt
    s!"invalid jump target {a} at instruction {ip}"
  | missingHalt => "execution ran past the end of the code"

end Fault

structure Machine where
  memory : Memory
  /-- The next instruction. -/
  ip : Nat
  /-- The top of the stack; the size of the memory if the stack is empty. -/
  sp : Nat
  /-- The first cell past the heap. -/
  hp : Int32
  /-- The frame. -/
  fp : Int32
  /-- The return address. -/
  ra : Int32
  /-- A place for one value. -/
  tm : Int32
  /-- How many instructions have been executed. -/
  steps : Nat
  /-- What was printed, newest first; none where the stack was empty. -/
  printed : List (Option Int32)

namespace Machine

/-- A machine with an empty stack and heap. -/
def fresh (size : Nat) : Machine :=
  ⟨.zeros size, 0, size, 0, Int32.ofNat size, 0, 0, 0, []⟩

/-- The value on top of the stack, if any. -/
def top (m : Machine) : Option Int32 := m.memory.get? m.sp

/-- What a machine printed, one line for each value. -/
def output (m : Machine) : List Char :=
  m.printed.reverse.flatMap fun
    | some v => Text.signedDecimal v.toInt ++ ['\n']
    | none => "Empty stack!\n".toList

/-- A part of the effect of the instruction at `ip`. -/
abbrev Action := EStateM Fault Machine

def push (ip : Nat) (v : Int32) : Action Unit := do
  let m ← get
  if m.sp = 0 then throw (.outOfMemory ip)
  set { m with sp := m.sp - 1, memory := m.memory.set (m.sp - 1) v }

def pop (ip : Nat) : Action Int32 := do
  let m ← get
  match m.top with
  | some v => set { m with sp := m.sp + 1 }; return v
  | none => throw (.stackUnderflow ip)

/-- The cell that an address names. -/
def cell (ip : Nat) (address : Int32) : Action Nat := do
  let m ← get
  if 0 ≤ address ∧ address.toInt.toNat < m.memory.size then return address.toInt.toNat
  throw (.invalidAddress address ip)

/-- Replaces the two topmost values by one. -/
def arith (ip : Nat) (f : Int32 → Int32 → Int32) : Action Unit := do
  let right ← pop ip
  let left ← pop ip
  push ip (f left right)

def goto (target : Nat) : Action Unit := modify fun m => { m with ip := target }

/-- Goes on at `target` if the two topmost values compare so. -/
def compareGoto (ip target : Nat) (holds : Int32 → Int32 → Bool) : Action Unit := do
  let right ← pop ip
  let left ← pop ip
  if holds left right then goto target

/-- The effect of an operation other than `halt`, in a code of `length` instructions. -/
def operate (length ip : Nat) : Op → Action Unit
  | .pop => discard (pop ip)
  | .add => arith ip (· + ·)
  | .sub => arith ip (· - ·)
  | .mult => arith ip (· * ·)
  | .div => do
    let right ← pop ip
    let left ← pop ip
    if right = 0 then throw (.divisionByZero ip)
    push ip (left / right)
  | .sw => do
    let address ← pop ip
    let v ← pop ip
    let a ← cell ip address
    modify fun m => { m with memory := m.memory.set a v }
  | .lw => do
    let address ← pop ip
    let a ← cell ip address
    let m ← get
    push ip ((m.memory.get? a).getD 0)
  | .js => do
    let address ← pop ip
    -- the address to return to, the one after `ip`, must be a 32-bit integer too
    if 0 ≤ address ∧ address.toInt.toNat < length ∧ ip < Text.maxInt32 then
      modify fun m => { m with ra := Int32.ofNat m.ip, ip := address.toInt.toNat }
    else throw (.invalidJump address ip)
  | .lra => do push ip (← get).ra
  | .sra => do let v ← pop ip; modify fun m => { m with ra := v }
  | .ltm => do push ip (← get).tm
  | .stm => do let v ← pop ip; modify fun m => { m with tm := v }
  | .lfp => do push ip (← get).fp
  | .sfp => do let v ← pop ip; modify fun m => { m with fp := v }
  | .cfp => modify fun m => { m with fp := Int32.ofNat m.sp }
  | .lhp => do push ip (← get).hp
  | .shp => do let v ← pop ip; modify fun m => { m with hp := v }
  | .print => modify fun m => { m with printed := m.top :: m.printed }
  | .halt => return

/-- The effect of an instruction other than `halt`. -/
def execute (length ip : Nat) : Instr → Action Unit
  | .push v => push ip v
  | .branch .always target => goto target
  | .branch .ifEqual target => compareGoto ip target (· == ·)
  | .branch .ifLessEq target => compareGoto ip target (fun left right => decide (left ≤ right))
  | .op o => operate length ip o

/-- Whether a machine can go on. -/
inductive Status
  | running
  | halted
  | faulted (f : Fault)

/-- Stack and heap must lie apart after an instruction. -/
def checkRoom (ip : Nat) (m : Machine) : Machine × Status :=
  if m.hp.toInt < m.sp then (m, .running) else (m, .faulted (.outOfMemory ip))

/-- One instruction. -/
def step (code : Array Instr) (m : Machine) : Machine × Status :=
  match code[m.ip]? with
  | none => (m, .faulted .missingHalt)
  | some i =>
    let begun := { m with ip := m.ip + 1, steps := m.steps + 1 }
    if i = .op .halt then (begun, .halted)
    else
      match execute code.size m.ip i begun with
      | .ok _ done => checkRoom m.ip done
      | .error f stuck => (stuck, .faulted f)

/-- At most `n` instructions, fewer if the machine stops. -/
def run (code : Array Instr) : Nat → Machine → Machine × Status
  | 0, m => (m, .running)
  | n + 1, m =>
    match step code m with
    | (next, .running) => run code n next
    | stopped => stopped

/-- **A run can be interrupted anywhere.** -/
theorem run_add (code : Array Instr) : ∀ (a b : Nat) (m : Machine), run code (a + b) m =
    match run code a m with
    | (next, .running) => run code b next
    | stopped => stopped
  | 0, b, m => by rw [Nat.zero_add]; rfl
  | a + 1, b, m => by
    rw [Nat.succ_add, run, run]
    split
    · rename_i next h
      exact run_add code a b next
    · rename_i h
      split
      · rename_i next hr
        exact absurd hr (h next)
      · rfl

end Machine
end FoolLang
