import FoolLang.Proofs.Configs
import Mathlib.Algebra.GroupWithZero.Nat
/-!
# Guards — no step leaves the memory or its words

A machine carries out any code at all, and its arithmetic is total: nothing here could show an index out of range.
Beside it stands one that is guarded.  It traps where an index is outside the memory, where a count has no room in its
word or where a quotient does not exist, and it keeps a log of what an instruction does to the memory.  Whatever the
code, no call of `run` after any others reaches a machine at which the two differ (`machine_safe`).
-/
namespace FoolLang

/-- What an instruction does to the memory. -/
inductive Access
  /-- Begins to push, with the top of the stack at `sp`. -/
  | push (sp : Nat)
  | write (address : Nat)
  deriving DecidableEq

/-- A machine and what its instruction has done to the memory, the latest first. -/
structure Watched where
  machine : Machine
  log : List Access

/-- Why a guarded instruction is not completed. -/
inductive Guarded.Stop
  | fault (f : Fault)
  | trap

/-- A part of the effect of an instruction, guarded. -/
abbrev Guarded := EStateM Guarded.Stop Watched

namespace Guarded

def need (p : Prop) [Decidable p] : Guarded Unit := if p then return () else throw .trap

def fail {α : Type} (f : Fault) : Guarded α := throw (.fault f)

def registers (g : Machine → Machine) : Guarded Unit := modify fun w => { w with machine := g w.machine }

/-- Reads a cell by its index. -/
def read (a : Nat) : Guarded Int32 := do
  match (← get).machine.memory.get? a with
  | some v => return v
  | none => throw .trap

/-- Writes a cell by its index. -/
def write (a : Nat) (v : Int32) : Guarded Unit := do
  need (a < (← get).machine.memory.size)
  modify fun w => ⟨{ w.machine with memory := w.machine.memory.set a v }, .write a :: w.log⟩

/-- A count as a value. -/
def word (n : Nat) : Guarded Int32 := do
  need (n ≤ Text.maxInt32)
  return Int32.ofNat n

/-- The quotient, cut off toward zero and wrapped around. -/
def quotient (left right : Int32) : Guarded Int32 := do
  need (right ≠ 0)
  return Int32.ofInt (left.toInt.tdiv right.toInt)

def push (ip : Nat) (v : Int32) : Guarded Unit := do
  let sp := (← get).machine.sp
  modify fun w => { w with log := .push sp :: w.log }
  if sp = 0 then fail (.outOfMemory ip)
  registers fun m => { m with sp := m.sp - 1 }
  write (sp - 1) v

def pop (ip : Nat) : Guarded Int32 := do
  let m := (← get).machine
  match m.top with
  | some v =>
    need (m.sp + 1 ≤ m.memory.size)
    registers fun m => { m with sp := m.sp + 1 }
    return v
  | none => fail (.stackUnderflow ip)

def cell (ip : Nat) (address : Int32) : Guarded Nat := do
  if 0 ≤ address ∧ address.toInt.toNat < (← get).machine.memory.size then return address.toInt.toNat
  fail (.invalidAddress address ip)

def arith (ip : Nat) (f : Int32 → Int32 → Int32) : Guarded Unit := do
  let right ← pop ip
  let left ← pop ip
  push ip (f left right)

def goto (target : Nat) : Guarded Unit := registers fun m => { m with ip := target }

def compareGoto (ip target : Nat) (holds : Int32 → Int32 → Bool) : Guarded Unit := do
  let right ← pop ip
  let left ← pop ip
  if holds left right then goto target

def operate (length ip : Nat) : Op → Guarded Unit
  | .pop => discard (pop ip)
  | .add => arith ip (· + ·)
  | .sub => arith ip (· - ·)
  | .mult => arith ip (· * ·)
  | .div => do
    let right ← pop ip
    let left ← pop ip
    if right = 0 then fail (.divisionByZero ip)
    push ip (← quotient left right)
  | .sw => do
    let address ← pop ip
    let v ← pop ip
    write (← cell ip address) v
  | .lw => do
    let address ← pop ip
    push ip (← read (← cell ip address))
  | .js => do
    let address ← pop ip
    if 0 ≤ address ∧ address.toInt.toNat < length ∧ ip < Text.maxInt32 then
      let back ← word (← get).machine.ip
      registers fun m => { m with ra := back, ip := address.toInt.toNat }
    else fail (.invalidJump address ip)
  | .lra => do push ip (← get).machine.ra
  | .sra => do let v ← pop ip; registers fun m => { m with ra := v }
  | .ltm => do push ip (← get).machine.tm
  | .stm => do let v ← pop ip; registers fun m => { m with tm := v }
  | .lfp => do push ip (← get).machine.fp
  | .sfp => do let v ← pop ip; registers fun m => { m with fp := v }
  | .cfp => do let top ← word (← get).machine.sp; registers fun m => { m with fp := top }
  | .lhp => do push ip (← get).machine.hp
  | .shp => do let v ← pop ip; registers fun m => { m with hp := v }
  | .print => registers fun m => { m with printed := m.top :: m.printed }
  | .halt => return

def execute (length ip : Nat) : Instr → Guarded Unit
  | .push v => push ip v
  | .branch .always target => goto target
  | .branch .ifEqual target => compareGoto ip target (· == ·)
  | .branch .ifLessEq target => compareGoto ip target (fun left right => decide (left ≤ right))
  | .op o => operate length ip o

/-- One guarded instruction and its log; none if it traps. -/
def step (code : Array Instr) (m : Machine) : Option (Machine × Machine.Status × List Access) :=
  match code[m.ip]? with
  | none => some (m, .faulted .missingHalt, [])
  | some i =>
    -- the length of the code is a word, so an index up to it is one too
    if m.ip + 1 ≤ code.size then
      let begun := { m with ip := m.ip + 1, steps := m.steps + 1 }
      if i = .op .halt then some (begun, .halted, [])
      else
        match execute code.size m.ip i ⟨begun, []⟩ with
        | .ok _ ⟨done, log⟩ =>
          let (next, status) := Machine.checkRoom m.ip done
          some (next, status, log)
        | .error (.fault f) ⟨stuck, log⟩ => some (stuck, .faulted f, log)
        | .error .trap _ => none
    else none

end Guarded

/-! ## Guarded and plain effects -/

/-- In the course of the instruction at `ip`, on a memory of `n` cells. -/
structure Machine.Within (n ip : Nat) (m : Machine) : Prop where
  size_eq : m.memory.size = n
  sp_le : m.sp ≤ n
  ip_eq : m.ip = ip + 1

section Effects

theorem bind_apply {ε σ α β : Type} (x : EStateM ε σ α) (f : α → EStateM ε σ β) (s : σ) :
    (x >>= f) s = match x s with
      | .ok a t => f a t
      | .error e t => .error e t := rfl

variable {n ip : Nat} {α : Type}

/-- The guarded effect is the plain one, it leaves the memory alone, and its value satisfies `Q`. -/
def Prepares (n ip : Nat) (Q : α → Prop) (x : Guarded α) (y : Machine.Action α) : Prop :=
  ∀ m log, m.Within n ip →
    (∃ a next, y m = .ok a next ∧ x ⟨m, log⟩ = .ok a ⟨next, log⟩ ∧ Q a ∧ next.Within n ip ∧ next.steps = m.steps) ∨
    ∃ f next, y m = .error f next ∧ x ⟨m, log⟩ = .error (.fault f) ⟨next, log⟩ ∧ (∀ i, f ≠ .outOfMemory i) ∧
      next.Within n ip ∧ next.steps = m.steps

/-- The guarded effect is the plain one, and with it the instruction is over: it ran out of memory if it had to push
and there was no cell, and a cell it wrote is the top of the stack, unless it may write anywhere. -/
def Completes (n ip : Nat) (anywhere : Prop) (x : Guarded Unit) (y : Machine.Action Unit) : Prop :=
  ∀ m log, m.Within n ip → ∃ new next,
    ((y m = .ok () next ∧ x ⟨m, log⟩ = .ok () ⟨next, new ++ log⟩ ∧ .push 0 ∉ new) ∨
      ∃ f, y m = .error f next ∧ x ⟨m, log⟩ = .error (.fault f) ⟨next, new ++ log⟩ ∧
        ∀ i, f = .outOfMemory i ↔ i = ip ∧ .push 0 ∈ new) ∧
    next.memory.size = n ∧ next.sp ≤ n ∧ next.steps = m.steps ∧ ∀ a, .write a ∈ new → anywhere ∨ a = next.sp

theorem Guarded.need_bind {p : Prop} [Decidable p] (h : p) (f : Unit → Guarded α) (w : Watched) :
    (Guarded.need p >>= f) w = f () w := by
  rw [Guarded.need, if_pos h]
  rfl

theorem Completes.bind {Q : α → Prop} {anywhere : Prop} {x : Guarded α} {y : Machine.Action α} {f : α → Guarded Unit}
    {g : α → Machine.Action Unit} (hx : Prepares n ip Q x y) (hf : ∀ a, Q a → Completes n ip anywhere (f a) (g a)) :
    Completes n ip anywhere (x >>= f) (y >>= g) := by
  intro m log hm
  rcases hx m log hm with ⟨a, next, hy, hx, ha, hnext, hsteps⟩ | ⟨e, next, hy, hx, hne, hnext, hsteps⟩
  · obtain ⟨new, last, hrun, hsize, hsp, hlast, hwrites⟩ := hf a ha next log hnext
    refine ⟨new, last, ?_, hsize, hsp, hlast.trans hsteps, hwrites⟩
    rwa [bind_apply, bind_apply, hy, hx]
  · refine ⟨[], next, .inr ⟨e, ?_, ?_, fun i => ?_⟩, hnext.size_eq, hnext.sp_le, hsteps, by simp⟩
    · rw [bind_apply, hy]
    · rw [bind_apply, hx]
      rfl
    · simp [hne i]

theorem prepares_pop : Prepares n ip (fun _ => True) (Guarded.pop ip) (Machine.pop ip) := by
  intro m log hm
  cases htop : m.top with
  | none =>
    refine .inr ⟨.stackUnderflow ip, m, ?_, ?_, nofun, hm, rfl⟩
    · rw [Machine.pop, get_bind_eq, htop]
      rfl
    · rw [Guarded.pop, get_bind_eq]
      simp only [htop]
      rfl
  | some v =>
    have hlt : m.sp < m.memory.size := by
      have h := m.memory.get?_isSome m.sp
      rw [show m.memory.get? m.sp = some v from htop] at h
      simpa using h.symm
    refine .inl ⟨v, { m with sp := m.sp + 1 }, ?_, ?_, trivial, ⟨hm.size_eq, ?_, hm.ip_eq⟩, rfl⟩
    · rw [Machine.pop, get_bind_eq, htop]
      rfl
    · rw [Guarded.pop, get_bind_eq]
      simp only [htop]
      rw [Guarded.need_bind (show m.sp + 1 ≤ m.memory.size from hlt)]
      rfl
    · show m.sp + 1 ≤ n
      rw [← hm.size_eq]
      exact hlt

theorem prepares_cell (address : Int32) :
    Prepares n ip (· < n) (Guarded.cell ip address) (Machine.cell ip address) := by
  intro m log hm
  rw [Guarded.cell, Machine.cell, get_bind_eq, get_bind_eq]
  by_cases h : 0 ≤ address ∧ address.toInt.toNat < m.memory.size
  · rw [if_pos h, if_pos h]
    exact .inl ⟨_, m, rfl, rfl, hm.size_eq ▸ h.2, hm, rfl⟩
  · rw [if_neg h, if_neg h]
    exact .inr ⟨_, m, rfl, rfl, by simp, hm, rfl⟩

/-- An instruction ends with a change of registers that keeps the stack. -/
theorem completes_registers {anywhere : Prop} (g : Machine → Machine) (hmem : ∀ m, (g m).memory = m.memory)
    (hsp : ∀ m, (g m).sp = m.sp) (hsteps : ∀ m, (g m).steps = m.steps) :
    Completes n ip anywhere (Guarded.registers g) (modify g) := fun m log hm =>
  ⟨[], g m, .inl ⟨rfl, rfl, by simp⟩, by rw [hmem, hm.size_eq], by rw [hsp]; exact hm.sp_le, hsteps m, by simp⟩

theorem completes_push {anywhere : Prop} (v : Int32) :
    Completes n ip anywhere (Guarded.push ip v) (Machine.push ip v) := by
  intro m log hm
  rw [Guarded.push, Machine.push, get_bind_eq, get_bind_eq]
  by_cases h0 : m.sp = 0
  · refine ⟨[.push 0], m, .inr ⟨.outOfMemory ip, ?_, ?_, fun i => ?_⟩, hm.size_eq, hm.sp_le, rfl, by simp⟩
    · rw [if_pos h0]
      rfl
    · simp only [h0, if_true]
      rfl
    · simp [eq_comm]
  · have hle := hm.sp_le
    have hlt : m.sp - 1 < m.memory.size := by
      rw [hm.size_eq]
      omega
    refine ⟨[.write (m.sp - 1), .push m.sp], { m with sp := m.sp - 1, memory := m.memory.set (m.sp - 1) v },
      .inl ⟨?_, ?_, by simp; omega⟩, hm.size_eq, ?_, rfl, by simp⟩
    · rw [if_neg h0]
      rfl
    · simp only [if_neg h0, Guarded.write]
      show (Guarded.need (m.sp - 1 < m.memory.size) >>= _) _ = _
      rw [Guarded.need_bind hlt]
      rfl
    · show m.sp - 1 ≤ n
      omega

theorem completes_write {anywhere : Prop} (h : anywhere) {a : Nat} (ha : a < n) (v : Int32) :
    Completes n ip anywhere (Guarded.write a v) (modify fun m => { m with memory := m.memory.set a v }) := by
  intro m log hm
  refine ⟨[.write a], { m with memory := m.memory.set a v }, .inl ⟨rfl, ?_, by simp⟩, hm.size_eq, hm.sp_le, rfl,
    fun _ _ => .inl h⟩
  have hlt : a < m.memory.size := hm.size_eq ▸ ha
  show (Guarded.need (a < m.memory.size) >>= _) _ = _
  rw [Guarded.need_bind hlt]
  rfl

theorem completes_fail {anywhere : Prop} {f : Fault} (hf : ∀ i, f ≠ .outOfMemory i) :
    Completes n ip anywhere (Guarded.fail f) (throw f) := fun m log hm =>
  ⟨[], m, .inr ⟨f, rfl, rfl, fun i => by simp [hf i]⟩, hm.size_eq, hm.sp_le, rfl, by simp⟩

/-- An instruction may end with a value that is read from the registers. -/
theorem Completes.get {anywhere : Prop} {f : Watched → Guarded Unit} {g : Machine → Machine.Action Unit}
    (h : ∀ m log, m.Within n ip → ∃ x y, f ⟨m, log⟩ ⟨m, log⟩ = x ⟨m, log⟩ ∧ g m m = y m ∧ Completes n ip anywhere x y) :
    Completes n ip anywhere (get >>= f) (get >>= g) := by
  intro m log hm
  obtain ⟨x, y, hx, hy, hc⟩ := h m log hm
  rw [get_bind_eq, get_bind_eq, hx, hy]
  exact hc m log hm

/-- The quotient of two words is the one that the guard demands, also of the least number by -1. -/
theorem Guarded.quotient_bind {left right : Int32} (h : right ≠ 0) (f : Int32 → Guarded α) (w : Watched) :
    (Guarded.quotient left right >>= f) w = f (left / right) w := by
  have hdiv : left / right = Int32.ofInt (left.toInt.tdiv right.toInt) := by
    rw [← Int32.toInt_inj, Int32.toInt_div, Int32.toInt_ofInt]
  rw [hdiv, bind_apply, Guarded.quotient, Guarded.need_bind h]
  rfl

theorem Guarded.word_bind {k : Nat} (h : k ≤ Text.maxInt32) (f : Int32 → Guarded α) (w : Watched) :
    (Guarded.word k >>= f) w = f (Int32.ofNat k) w := by
  rw [bind_apply, Guarded.word, Guarded.need_bind h]
  rfl

theorem Guarded.read_bind {m : Machine} {a : Nat} (h : a < m.memory.size) (f : Int32 → Guarded α) (log : List Access) :
    (Guarded.read a >>= f) ⟨m, log⟩ = f ((m.memory.get? a).getD 0) ⟨m, log⟩ := by
  obtain ⟨v, hv⟩ := Option.isSome_iff_exists.1 (((m.memory.get?_isSome a).trans (decide_eq_true h)))
  rw [bind_apply, Guarded.read, get_bind_eq]
  simp only [hv]
  rfl

theorem completes_done {anywhere : Prop} : Completes n ip anywhere (pure ()) (pure ()) := fun m log hm =>
  ⟨[], m, .inl ⟨rfl, rfl, by simp⟩, hm.size_eq, hm.sp_le, rfl, by simp⟩

theorem completes_goto {anywhere : Prop} (target : Nat) :
    Completes n ip anywhere (Guarded.goto target) (Machine.goto target) :=
  completes_registers _ (fun _ => rfl) (fun _ => rfl) fun _ => rfl

theorem completes_arith {anywhere : Prop} (f : Int32 → Int32 → Int32) :
    Completes n ip anywhere (Guarded.arith ip f) (Machine.arith ip f) :=
  .bind prepares_pop fun _ _ => .bind prepares_pop fun _ _ => completes_push _

theorem completes_compareGoto {anywhere : Prop} (target : Nat) (holds : Int32 → Int32 → Bool) :
    Completes n ip anywhere (Guarded.compareGoto ip target holds) (Machine.compareGoto ip target holds) :=
  .bind prepares_pop fun right _ => .bind prepares_pop fun left _ => by
    by_cases h : holds left right
    · rw [if_pos h, if_pos h]
      exact completes_goto target
    · rw [if_neg h, if_neg h]
      exact completes_done

/-- An instruction pops a value and keeps it in a register. -/
theorem completes_store {anywhere : Prop} (g : Int32 → Machine → Machine) (hmem : ∀ v m, (g v m).memory = m.memory)
    (hsp : ∀ v m, (g v m).sp = m.sp) (hsteps : ∀ v m, (g v m).steps = m.steps) :
    Completes n ip anywhere (Guarded.pop ip >>= fun v => Guarded.registers (g v))
      (Machine.pop ip >>= fun v => modify (g v)) :=
  .bind prepares_pop fun v _ => completes_registers (g v) (hmem v) (hsp v) (hsteps v)

/-- An instruction pushes the value of a register. -/
theorem completes_load {anywhere : Prop} (value : Machine → Int32) :
    Completes n ip anywhere (get >>= fun w => Guarded.push ip (value w.machine))
      (get >>= fun m => Machine.push ip (value m)) :=
  .get fun m _ _ => ⟨_, _, rfl, rfl, completes_push (value m)⟩

end Effects

/-- **Each operation is carried out as its guarded one demands**: whatever it is, on a memory whose size is a word. -/
theorem completes_operate {n ip : Nat} (hn : n ≤ Text.maxInt32) (length : Nat) (o : Op) :
    Completes n ip (o = .sw) (Guarded.operate length ip o) (Machine.operate length ip o) := by
  cases o with
  | pop => exact .bind prepares_pop fun _ _ => completes_done
  | add => exact completes_arith _
  | sub => exact completes_arith _
  | mult => exact completes_arith _
  | div =>
    refine .bind prepares_pop fun right _ => .bind prepares_pop fun left _ => ?_
    by_cases h : right = 0
    · simp only [if_pos h]
      exact completes_fail nofun
    · simp only [if_neg h]
      intro m log hm
      have hpush : Completes n ip (Op.div = .sw) _ _ := completes_push (left / right)
      replace hpush := hpush m log hm
      rwa [← Guarded.quotient_bind h (Guarded.push ip)] at hpush
  | sw =>
    refine .bind prepares_pop fun address _ => .bind prepares_pop fun v _ =>
      .bind (prepares_cell address) fun a ha => ?_
    exact completes_write rfl ha v
  | lw =>
    refine .bind prepares_pop fun address _ => .bind (prepares_cell address) fun a ha m log hm => ?_
    have hpush : Completes n ip (Op.lw = .sw) _ _ := completes_push ((m.memory.get? a).getD 0)
    replace hpush := hpush m log hm
    rwa [← Guarded.read_bind (hm.size_eq ▸ ha) (Guarded.push ip)] at hpush
  | js =>
    refine .bind prepares_pop fun address _ => ?_
    split
    · rename_i h
      refine fun m log hm => ?_
      have hback : m.ip ≤ Text.maxInt32 := by
        rw [hm.ip_eq]
        exact h.2.2
      rw [get_bind_eq, Guarded.word_bind hback]
      exact ⟨[], { m with ra := Int32.ofNat m.ip, ip := address.toInt.toNat }, .inl ⟨rfl, rfl, by simp⟩, hm.size_eq,
        hm.sp_le, rfl, by simp⟩
    · exact completes_fail nofun
  | lra => exact completes_load _
  | sra => exact completes_store _ (fun _ _ => rfl) (fun _ _ => rfl) fun _ _ => rfl
  | ltm => exact completes_load _
  | stm => exact completes_store _ (fun _ _ => rfl) (fun _ _ => rfl) fun _ _ => rfl
  | lfp => exact completes_load _
  | sfp => exact completes_store _ (fun _ _ => rfl) (fun _ _ => rfl) fun _ _ => rfl
  | cfp =>
    intro m log hm
    have htop : m.sp ≤ Text.maxInt32 := Nat.le_trans hm.sp_le hn
    refine ⟨[], { m with fp := Int32.ofNat m.sp }, .inl ⟨rfl, ?_, by simp⟩, hm.size_eq, hm.sp_le, rfl, by simp⟩
    rw [Guarded.operate, get_bind_eq, Guarded.word_bind htop]
    rfl
  | lhp => exact completes_load _
  | shp => exact completes_store _ (fun _ _ => rfl) (fun _ _ => rfl) fun _ _ => rfl
  | print => exact completes_registers _ (fun _ => rfl) (fun _ => rfl) fun _ => rfl
  | halt => exact completes_done

theorem completes_execute {n ip : Nat} (hn : n ≤ Text.maxInt32) (length : Nat) (i : Instr) :
    Completes n ip (i = .op .sw) (Guarded.execute length ip i) (Machine.execute length ip i) := by
  cases i with
  | push v => exact completes_push v
  | branch c target =>
    cases c with
    | always => exact completes_goto target
    | ifEqual => exact completes_compareGoto target _
    | ifLessEq => exact completes_compareGoto target _
  | op o =>
    rw [Instr.op.injEq]
    exact completes_operate hn length o

/-! ## Every step -/

namespace Machine

/-- What holds of a machine with `size` cells between instructions, whatever its registers hold. -/
structure Sound (size : Nat) (m : Machine) : Prop where
  size_eq : m.memory.size = size
  sp_le : m.sp ≤ size

/-- The instruction that comes next is completed, but stack and heap may have met. -/
def Completed (code : Array Instr) (m done : Machine) : Prop :=
  ∃ i, code[m.ip]? = some i ∧ i ≠ .op .halt ∧
    execute code.size m.ip i { m with ip := m.ip + 1, steps := m.steps + 1 } = .ok () done

/-- What a step does beside going to the next machine, as its log tells. -/
structure Watches (code : Array Instr) (m next : Machine) (status : Status) (log : List Access) : Prop where
  outOfMemory_iff (i : Nat) : status = .faulted (.outOfMemory i) ↔
    i = m.ip ∧ (.push 0 ∈ log ∨ ∃ done, Completed code m done ∧ (done.sp : Int) ≤ done.hp.toInt)
  apart : status = .running → next.hp.toInt < next.sp
  write_above : status = .running → ∀ a : Nat, .write a ∈ log → (a : Int) ≤ next.hp.toInt →
    code[m.ip]? = some (.op .sw)

variable {code : Array Instr} {size : Nat} {m : Machine}

/-- A step that does not go on is watched for running out of memory only. -/
theorem Watches.of_stopped {next : Machine} {status : Status} {log : List Access} (hs : status ≠ .running)
    (h : ∀ i, status = .faulted (.outOfMemory i) ↔
      i = m.ip ∧ (.push 0 ∈ log ∨ ∃ done, Completed code m done ∧ (done.sp : Int) ≤ done.hp.toInt)) :
    Watches code m next status log :=
  ⟨h, fun hr => absurd hr hs, fun hr => absurd hr hs⟩

theorem watches_checkRoom {i : Instr} {done : Machine} {log : List Access} (hi : code[m.ip]? = some i)
    (hne : i ≠ .op .halt)
    (hx : execute code.size m.ip i { m with ip := m.ip + 1, steps := m.steps + 1 } = .ok () done)
    (hpush : .push 0 ∉ log) (hwrite : ∀ a, .write a ∈ log → i = .op .sw ∨ a = done.sp) :
    Watches code m (checkRoom m.ip done).1 (checkRoom m.ip done).2 log := by
  have hdone : ∀ done', Completed code m done' ↔ done' = done := by
    intro done'
    constructor
    · rintro ⟨j, hj, -, hjx⟩
      obtain rfl : i = j := Option.some.inj (hi.symm.trans hj)
      exact (EStateM.Result.ok.inj (hx.symm.trans hjx)).2.symm
    · rintro rfl
      exact ⟨i, hi, hne, hx⟩
  rw [checkRoom]
  split
  · rename_i hroom
    refine ⟨fun i => ?_, fun _ => hroom, fun _ a ha (hle : (a : Int) ≤ done.hp.toInt) => ?_⟩
    · simp only [hdone, exists_eq_left, hpush, false_or, reduceCtorEq, false_iff, not_and, Int.not_le]
      exact fun _ => hroom
    · rcases hwrite a ha with rfl | rfl
      · exact hi
      · omega
  · rename_i hroom
    refine .of_stopped (by simp) fun i => ?_
    simp only [hdone, exists_eq_left, hpush, false_or, Status.faulted.injEq, Fault.outOfMemory.injEq]
    constructor
    · rintro rfl
      exact ⟨rfl, Int.not_lt.1 hroom⟩
    · rintro ⟨rfl, -⟩
      rfl

/-- **No step traps**, and each keeps the size of the memory and the stack inside it. -/
theorem step_guarded (code : Array Instr) (hsize : size ≤ Text.maxInt32) (hm : m.Sound size) :
    (∃ log, Guarded.step code m = some ((step code m).1, (step code m).2, log) ∧
      Watches code m (step code m).1 (step code m).2 log) ∧
    (step code m).1.Sound size ∧ (step code m).1.steps ≤ m.steps + 1 := by
  rw [step, Guarded.step]
  cases hi : code[m.ip]? with
  | none =>
    refine ⟨⟨[], rfl, .of_stopped (by simp) fun i => ?_⟩, hm, Nat.le_succ _⟩
    simp [Completed, hi]
  | some i =>
    have hip : m.ip + 1 ≤ code.size := (Array.getElem?_eq_some_iff.1 hi).1
    simp only [if_pos hip]
    by_cases hhalt : i = .op .halt
    · simp only [if_pos hhalt]
      refine ⟨⟨[], rfl, .of_stopped (by simp) fun j => ?_⟩, ⟨hm.size_eq, hm.sp_le⟩, Nat.le_refl _⟩
      simp [Completed, hi, hhalt]
    · simp only [if_neg hhalt]
      obtain ⟨log, next, hrun, hsz, hsp, hsteps, hwrite⟩ := completes_execute hsize code.size i
        { m with ip := m.ip + 1, steps := m.steps + 1 } [] ⟨hm.size_eq, hm.sp_le, rfl⟩
      rw [List.append_nil] at hrun
      rcases hrun with ⟨hx, hg, hpush⟩ | ⟨f, hx, hg, hf⟩
      · rw [hx, hg]
        refine ⟨⟨log, rfl, watches_checkRoom hi hhalt hx hpush hwrite⟩, ?_⟩
        rw [show (checkRoom m.ip next).1 = next by rw [checkRoom]; split <;> rfl]
        exact ⟨⟨hsz, hsp⟩, Nat.le_of_eq hsteps⟩
      · rw [hx, hg]
        refine ⟨⟨log, rfl, .of_stopped (by simp) fun j => ?_⟩, ⟨hsz, hsp⟩, Nat.le_of_eq hsteps⟩
        simp [Completed, hi, hx, hf]

theorem run_sound (code : Array Instr) (hsize : size ≤ Text.maxInt32) : ∀ (n : Nat) (m : Machine), m.Sound size →
    (run code n m).1.Sound size ∧ (run code n m).1.steps ≤ m.steps + n
  | 0, m, hm => ⟨hm, Nat.le_refl _⟩
  | n + 1, m, hm => by
    obtain ⟨-, hnext, hsteps⟩ := step_guarded code hsize hm
    rw [run]
    split
    · rename_i next h
      replace hnext : next.Sound size := by simpa only [h] using hnext
      replace hsteps : next.steps ≤ m.steps + 1 := by simpa only [h] using hsteps
      obtain ⟨hlast, hle⟩ := run_sound code hsize n next hnext
      exact ⟨hlast, by omega⟩
    · exact ⟨hnext, by omega⟩

/-- A machine on which `run` has been called several times, each call going on from where the one before it stopped,
for whatever reason. -/
def afterCalls (code : Array Instr) (size : Nat) (calls : List Nat) : Machine :=
  calls.foldl (fun m n => (run code n m).1) (fresh size)

theorem calls_sound (code : Array Instr) (hsize : size ≤ Text.maxInt32) : ∀ (calls : List Nat) (m : Machine),
    m.Sound size → (calls.foldl (fun m n => (run code n m).1) m).Sound size ∧
      (calls.foldl (fun m n => (run code n m).1) m).steps ≤ m.steps + calls.sum
  | [], _, hm => ⟨hm, Nat.le_refl _⟩
  | n :: calls, m, hm => by
    obtain ⟨hnext, hle⟩ := run_sound code hsize n m hm
    obtain ⟨hlast, hle'⟩ := calls_sound code hsize calls _ hnext
    rw [List.sum_cons]
    exact ⟨hlast, Nat.le_trans hle' (by omega)⟩

end Machine

/-- **Any code is safe.**  Whatever has been run on a machine before, and however it stopped, the next step does not
trap: it ends as the guarded one does.  It runs out of memory exactly when it pushes onto a full stack or, completed,
leaves no room between heap and stack, and unless it is a store to an address it writes above the heap only. -/
theorem machine_safe (code : Array Instr) {size : Nat} (hsize : size ≤ Text.maxInt32) (calls : List Nat) :
    let m := Machine.afterCalls code size calls
    let next := (Machine.step code m).1
    let status := (Machine.step code m).2
    m.memory.size = size ∧ m.sp ≤ size ∧ m.steps ≤ calls.sum ∧
      ∃ log, Guarded.step code m = some (next, status, log) ∧
        (∀ i, status = .faulted (.outOfMemory i) ↔
          i = m.ip ∧ (.push 0 ∈ log ∨ ∃ done, Machine.Completed code m done ∧ (done.sp : Int) ≤ done.hp.toInt)) ∧
        (status = .running → next.hp.toInt < next.sp ∧
          ∀ a : Nat, .write a ∈ log → (a : Int) ≤ next.hp.toInt → code[m.ip]? = some (.op .sw)) := by
  obtain ⟨hm, hsteps⟩ := Machine.calls_sound code hsize calls (.fresh size) ⟨rfl, Nat.le_refl _⟩
  obtain ⟨⟨log, hlog, hwatch⟩, -, -⟩ := Machine.step_guarded code hsize hm
  exact ⟨hm.size_eq, hm.sp_le, Nat.le_trans hsteps (Nat.le_of_eq (Nat.zero_add _)), log, hlog, hwatch.outOfMemory_iff,
    fun h => ⟨hwatch.apart h, hwatch.write_above h⟩⟩

/-- On two cells, `push` meets the heap; carried on, the least number is divided by -1, and a `pop` too many fails. -/
theorem machine_safe_resumed :
    let code : Array Instr := #[.push Int32.minValue, .push (-1), .op .div, .op .pop, .op .pop, .op .lhp]
    let m := Machine.afterCalls code 2 [9, 9]
    2 ≤ Text.maxInt32 ∧ m.sp ≤ 2 ∧
      ∃ log, Guarded.step code m = some ((Machine.step code m).1, (Machine.step code m).2, log) := by
  have hsize : 2 ≤ Text.maxInt32 := by decide
  obtain ⟨-, hsp, -, log, hlog, -⟩ :=
    machine_safe #[.push Int32.minValue, .push (-1), .op .div, .op .pop, .op .pop, .op .lhp] hsize [9, 9]
  exact ⟨hsize, hsp, log, hlog⟩

end FoolLang
