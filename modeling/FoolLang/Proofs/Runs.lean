import FoolLang.Proofs.Programs
/-!
# Runs — what compiled programs do

A run of a source that compiles ends: the machine halts, divides by zero, calls a method on `null` or runs out of
memory (`compiled_program_stops`).  Whatever it comes to agrees with the evaluation of the program
(`run_agrees_with_evaluate`); and where it halts, the value it leaves has the type of the program
(`compiled_program_sound`).
-/
namespace FoolLang

def ending {ε σ α : Type} : EStateM.Result ε σ α → σ
  | .ok _ s => s
  | .error _ s => s

namespace Machine

/-! ## What is printed -/

/-- An action takes back nothing that was printed. -/
def Prints {α : Type} (x : Action α) : Prop := ∀ m, m.printed <:+ (ending (x m)).printed

theorem Prints.bind {α β : Type} {x : Action α} {f : α → Action β} (hx : Prints x) (hf : ∀ a, Prints (f a)) :
    Prints (x >>= f) := by
  intro m
  have h := hx m
  change m.printed <:+ (ending (EStateM.bind x f m)).printed
  unfold EStateM.bind
  cases hr : x m with
  | error e m' =>
    rw [hr] at h
    exact h
  | ok a m' =>
    rw [hr] at h
    exact h.trans (hf a m')

theorem prints_modify {g : Machine → Machine} (hg : ∀ m, m.printed <:+ (g m).printed) :
    Prints (modify g : Action PUnit) := hg

theorem prints_push (ip : Nat) (v : Int32) : Prints (push ip v) := by
  intro m
  rw [push, get_bind_eq]
  split <;> exact List.suffix_refl _

theorem prints_pop (ip : Nat) : Prints (pop ip) := by
  intro m
  rw [pop, get_bind_eq]
  cases m.top <;> exact List.suffix_refl _

theorem prints_cell (ip : Nat) (address : Int32) : Prints (cell ip address) := by
  intro m
  rw [cell, get_bind_eq]
  split <;> exact List.suffix_refl _

theorem prints_arith (ip : Nat) (f : Int32 → Int32 → Int32) : Prints (arith ip f) :=
  (prints_pop ip).bind fun _ => (prints_pop ip).bind fun _ => prints_push ip _

theorem prints_compareGoto (ip target : Nat) (holds : Int32 → Int32 → Bool) : Prints (compareGoto ip target holds) := by
  refine (prints_pop ip).bind fun right => (prints_pop ip).bind fun left m => ?_
  split <;> exact List.suffix_refl _

theorem prints_operate (length ip : Nat) (o : Op) : Prints (operate length ip o) := by
  have hset : ∀ g : Int32 → Machine → Machine, (∀ v m, m.printed <:+ (g v m).printed) →
      Prints (do let v ← pop ip; modify (g v)) := fun g hg => (prints_pop ip).bind fun v => prints_modify (hg v)
  cases o with
  | pop => exact (prints_pop ip).bind fun _ _ => List.suffix_refl _
  | add | sub | mult => exact prints_arith ip _
  | div =>
    refine (prints_pop ip).bind fun right => (prints_pop ip).bind fun left m => ?_
    by_cases h : right = 0
    · simp only [h, if_true]
      exact List.suffix_refl _
    · simp only [h, if_false]
      exact prints_push ip _ m
  | sw =>
    exact (prints_pop ip).bind fun address => (prints_pop ip).bind fun v => (prints_cell ip address).bind fun a =>
      prints_modify fun _ => List.suffix_refl _
  | lw =>
    exact (prints_pop ip).bind fun address => (prints_cell ip address).bind fun a m => prints_push ip _ m
  | js =>
    refine (prints_pop ip).bind fun address m => ?_
    split <;> exact List.suffix_refl _
  | lra | ltm | lfp | lhp => exact fun m => prints_push ip _ m
  | sra | stm | sfp | shp => exact hset _ fun _ _ => List.suffix_refl _
  | cfp => exact prints_modify fun _ => List.suffix_refl _
  | print => exact prints_modify fun _ => List.suffix_cons _ _
  | halt => exact fun _ => List.suffix_refl _

theorem prints_execute (length ip : Nat) (i : Instr) : Prints (execute length ip i) := by
  cases i with
  | push v => exact prints_push ip v
  | branch b target =>
    cases b with
    | always => exact prints_modify fun _ => List.suffix_refl _
    | ifEqual | ifLessEq => exact prints_compareGoto ip target _
  | op o => exact prints_operate length ip o

theorem printed_step (code : Array Instr) (m : Machine) : m.printed <:+ (step code m).1.printed := by
  unfold step
  split
  · exact List.suffix_refl _
  · rename_i i _
    dsimp only
    split
    · exact List.suffix_refl _
    · have h := prints_execute code.size m.ip i { m with ip := m.ip + 1, steps := m.steps + 1 }
      split
      · rename_i done hd
        rw [hd] at h
        unfold checkRoom
        split <;> exact h
      · rename_i f stuck hd
        rw [hd] at h
        exact h

/-- **A machine that goes on takes back nothing it has printed.** -/
theorem printed_run (code : Array Instr) : ∀ (n : Nat) (m : Machine), m.printed <:+ (run code n m).1.printed
  | 0, _ => List.suffix_refl _
  | n + 1, m => by
    have h := printed_step code m
    rw [run]
    split
    · rename_i next hs
      rw [hs] at h
      exact h.trans (printed_run code n next)
    · exact h

/-! ## Determinism -/

variable {code : Array Instr} {n k : Nat} {start m m' : Machine} {st st' : Status}

theorem run_of_le (h : run code n start = (m, st)) (hst : st ≠ .running) (hk : n ≤ k) : run code k start = (m, st) := by
  obtain ⟨j, rfl⟩ := Nat.exists_eq_add_of_le hk
  rw [run_add, h]
  cases st with
  | running => exact absurd rfl hst
  | halted => rfl
  | faulted f => rfl

/-- **A machine stops in one way only.** -/
theorem run_unique (h : run code n start = (m, st)) (hst : st ≠ .running) (h' : run code k start = (m', st'))
    (hst' : st' ≠ .running) : m = m' ∧ st = st' := by
  rcases Nat.le_total n k with hk | hk
  · rw [run_of_le h hst hk] at h'
    exact Prod.mk.inj h'
  · rw [run_of_le h' hst' hk] at h
    exact (Prod.mk.inj h.symm)

theorem printed_of_running (h : run code n start = (m, .running)) (h' : run code k start = (m', st'))
    (hst' : st' ≠ .running) : m.printed <:+ m'.printed := by
  rcases Nat.le_total n k with hk | hk
  · obtain ⟨j, rfl⟩ := Nat.exists_eq_add_of_le hk
    have hp := printed_run code j m
    rw [run_add, h] at h'
    dsimp only at h'
    rwa [h'] at hp
  · rw [run_of_le h' hst' hk] at h
    exact absurd (Prod.mk.inj h).2 hst'

end Machine

/-! ## How a run ends -/

/-- The stack of a machine with so many cells, the top of it first. -/
structure Machine.Holds (memory : Nat) (m : Machine) (s : List Int32) : Prop where
  size : m.sp + s.length = memory
  cell : ∀ i v, s[i]? = some v → m.memory.get? (m.sp + i) = some v

/-- How a machine that has stopped agrees with an evaluation of a program of type `ty`. -/
inductive Concludes (H : Host) (p : Program) (ty : Ty) (r : EStateM.Result Stop World Value) (m : Machine) :
    Machine.Status → Prop
  | halts {v : Value} {w : World} {hs : List Cell} {cells : List Int32} : r = .ok v w →
      v.Has p.classTable.hierarchy w ty → H.Represents p.plan w hs → p.Frame cells →
      m.Holds H.memory (v.word :: cells) → m.printed = w.printed.map some → Concludes H p ty r m .halted
  | divides {w : World} {ip : Nat} : r = .error .divisionByZero w → m.printed = w.printed.map some →
      Concludes H p ty r m (.faulted (.divisionByZero ip))
  | null {w : World} {ip : Nat} : r = .error .nullReceiver w → DispatchLoad H.memory H.fullCode p.resolve.nodes ip →
      m.printed = w.printed.map some → Concludes H p ty r m (.faulted (.invalidAddress (-1) ip))
  | starves {ip : Nat} : m.printed <:+ (ending r).printed.map some → Concludes H p ty r m (.faulted (.outOfMemory ip))

section

variable {H : Host} {p : Program} {ty : Ty} {r : EStateM.Result Stop World Value}

theorem Concludes.ne_running {m : Machine} {st : Machine.Status} (h : Concludes H p ty r m st) : st ≠ .running := by
  cases h <;> simp

def Stops (H : Host) (p : Program) (ty : Ty) (r : EStateM.Result Stop World Value) : Prop :=
  ∃ n m st, Machine.run H.instrs n (.fresh H.memory) = (m, st) ∧ Concludes H p ty r m st

/-- A machine stops if all machines that show what is reached stop there. -/
theorem Host.Reached.stops {c : Config} (h : H.Reached c) (hsize : H.code.size ≤ Text.maxInt32)
    (hp : (ending r).printed = c.printed)
    (hend : ∀ m, m.Shows H.memory c → ∃ m' st, Machine.step H.instrs m = (m', st) ∧ Concludes H p ty r m' st) :
    Stops H p ty r := by
  rcases h.run hsize H.memory_le with ⟨m, hr, hm⟩ | ⟨n, m, ip, hr, ho⟩
  · obtain ⟨m', st, hs, hc⟩ := hend m hm
    exact ⟨c.steps + 1, m', st, (Machine.run_succ_of_running hr).trans hs, hc⟩
  · exact ⟨n, m, _, hr, .starves (hp ▸ ho)⟩

theorem Host.Starved.stops {out : List Int32} (h : H.Starved out) (hsize : H.code.size ≤ Text.maxInt32)
    (ho : (ending r).printed = out) : Stops H p ty r := by
  obtain ⟨c, hc, hlen, hout⟩ := h
  rcases hc.run hsize H.memory_le with ⟨m, -, hm⟩ | ⟨n, m, ip, hr, hp⟩
  · have hsp := hm.sp
    omega
  · exact ⟨n, m, _, hr, .starves (hp.trans (ho ▸ hout.map some))⟩

/-- **A program without errors stops, and agrees with its evaluation.** -/
theorem Host.Outcome.stops (h : H.Outcome p.plan r fun v w => v.Has p.classTable.hierarchy w ty ∧ p.Leaves H v w)
    (hsize : H.code.size ≤ Text.maxInt32) :
    Stops H p ty r ∧ ∀ w, r ≠ .error .stuck w := by
  cases r with
  | ok v w =>
    refine ⟨?_, fun _ hr => by cases hr⟩
    obtain ⟨hv, cells, hs, fp, ra, tm, after, hframe, hrep, hat⟩ := h
    obtain ⟨n, hreached⟩ := hat.2
    refine hreached.stops hsize rfl fun m hm => ⟨_, _, Host.step_halt hm (Host.instrs_place hat.1 rfl), ?_⟩
    refine .halts rfl hv hrep (hframe H.memory) ⟨?_, fun i x hi => ?_⟩ hm.printed
    · rw [List.length_cons, List.length_map]
      exact hm.sp
    · have hi' : ((v.cell :: cells).map (·.word H.memory))[i]? = some x := hi
      rw [List.getElem?_map, Option.map_eq_some_iff] at hi'
      obtain ⟨cell, hcell, rfl⟩ := hi'
      exact hm.stack i cell hcell
  | error e w =>
    cases e with
    | exhausted => exact ⟨Host.Starved.stops h hsize rfl, fun _ hr => by cases hr⟩
    | divisionByZero =>
      refine ⟨?_, fun _ hr => by cases hr⟩
      obtain ⟨ip, c, hreached, -, hout, hfault⟩ := h
      refine hreached.stops hsize hout.symm fun m hm => ?_
      obtain ⟨m', hs, hp⟩ := hfault _ m H.memory_le hm
      exact ⟨m', _, hs, .divides rfl hp⟩
    | nullReceiver =>
      refine ⟨?_, fun _ hr => by cases hr⟩
      obtain ⟨ip, hload, c, hreached, -, hout, hfault⟩ := h
      refine hreached.stops hsize hout.symm fun m hm => ?_
      obtain ⟨m', hs, hp⟩ := hfault _ m H.memory_le hm
      exact ⟨m', _, hs, .null rfl (hload _ H.memory_le) hp⟩
    | stuck => exact False.elim h

end

/-! ## Compiled sources -/

section

variable {source : List Char} {limits : Limits} {c : Compilation}

theorem run_eq (hc : compile source limits.memory = .ok c) (hm : limits.memory ≤ Text.maxInt32)
    (hl : limits.code ≤ Text.maxInt32) (hs : c.code.size ≤ limits.code) (fuel : Nat) :
    run fuel source limits = .ok (c, Machine.run c.code.link.toArray fuel (.fresh limits.memory)) := by
  have hw := wellFormed_compile hm hc
  have ha : Assembly.assemble c.code.text limits.code = .ok c.code.link := by
    rw [hw.assemble_text (Nat.le_trans hs hl), if_pos hs]
  have hstart : Machine.start limits.memory = .ok (.fresh limits.memory) := if_pos hm
  have hx : execute fuel c.code.text limits =
      .ok (Machine.run c.code.link.toArray fuel (.fresh limits.memory)) := by
    rw [execute, ha, hstart]
    rfl
  rw [run, hc]
  change ((execute fuel c.code.text limits).mapError _ >>= _) = _
  rw [hx]
  rfl

/-- A program as the host of machines with at most so many cells. -/
def Program.host (p : Program) (memory : Nat) (hm : memory ≤ Text.maxInt32)
    (ha : (p.resolve.code Code.mark).Addressable) : Host where
  memory := memory
  code := p.resolve.code Code.mark
  levels := p.resolve.levelOf
  memory_le := hm
  addressable := ha
  definedOnce l := by
    rw [count_define_program]
    exact l.among_le_one _ _ _ _

/-- **The code of a source that compiles does what evaluating the source does**, in memories up to any size. -/
theorem outcome_compiled {memory : Nat} (hb : Text.byteLength source ≤ Text.maxInt32) (hm : memory ≤ Text.maxInt32)
    (hc : compile source memory = .ok c) (ha : c.code.Addressable) :
    ∃ p, parse source = .ok p ∧ c.program = p.resolve ∧
      (∀ M ≤ Text.maxInt32, (p.resolve.code Code.mark).fill M = p.resolve.code M) ∧
      ∃ haddr, ∀ memory (hmem : memory ≤ Text.maxInt32) depth, memory ≤ depth →
        (p.host memory hmem haddr).Outcome p.plan (p.evaluate depth) fun v w =>
          v.Has p.classTable.hierarchy w c.type ∧ p.Leaves (p.host memory hmem haddr) v w := by
  obtain ⟨p, ty, hp, hd, hty, rfl⟩ := compile_ok hc
  have hf := Program.resolve_fits (offsetsFit_of_parse hp)
  have hfill : ∀ M ≤ Text.maxInt32, (p.resolve.code Code.mark).fill M = p.resolve.code M := fun M hM =>
    Program.fill_code hM hf
  have haddr : (p.resolve.code Code.mark).Addressable := by
    rw [← Code.addressable_fill (M := memory), hfill _ hm]
    exact ha
  refine ⟨p, hp, rfl, hfill, haddr, fun memory hmem depth hdepth => ?_⟩
  have hsettles : p.Settles (p.host memory hmem haddr) := Program.settles hp hb hd rfl rfl
  exact hsettles.outcome_evaluate hf hd hty rfl rfl hdepth

theorem Host.size_of_fullCode {H : Host} (h : H.fullCode = c.code) (hs : c.code.size ≤ limits.code)
    (hl : limits.code ≤ Text.maxInt32) : H.code.size ≤ Text.maxInt32 := by
  rw [← Code.size_fill (M := H.memory), ← Host.fullCode, h]
  exact Nat.le_trans hs hl

/-- **A source that compiles stops, and agrees with its evaluation.** -/
theorem compiled_stops (hb : Text.byteLength source ≤ Text.maxInt32) (hm : limits.memory ≤ Text.maxInt32)
    (hl : limits.code ≤ Text.maxInt32) (hc : compile source limits.memory = .ok c) (hs : c.code.size ≤ limits.code) :
    ∃ (H : Host) (p : Program), H.memory = limits.memory ∧ H.fullCode = c.code ∧ parse source = .ok p ∧
      c.program = p.resolve ∧ ∀ depth, limits.memory ≤ depth →
        Stops H p c.type (p.evaluate depth) ∧ ∀ w, p.evaluate depth ≠ .error .stuck w := by
  obtain ⟨p, hp, hprogram, hfill, haddr, houtcome⟩ :=
    outcome_compiled hb hm hc (Code.addressable_of_size (Nat.le_trans hs hl))
  have hcode : (p.host limits.memory hm haddr).fullCode = c.code := by
    obtain ⟨p', ty, hp', -, -, rfl⟩ := compile_ok hc
    obtain rfl : p' = p := Except.ok.inj (hp'.symm.trans hp)
    exact hfill _ hm
  exact ⟨p.host limits.memory hm haddr, p, rfl, hcode, hp, hprogram, fun depth hdepth =>
    (houtcome limits.memory hm depth hdepth).stops (Host.size_of_fullCode hcode hs hl)⟩

end

/-! ## Agreement -/

theorem Machine.output_congr {m m' : Machine} (h : m'.printed = m.printed) : m'.output = m.output := by
  rw [output, output, h]

theorem Machine.output_mono {m m' : Machine} (h : m.printed <:+ m'.printed) : m.output <+: m'.output := by
  obtain ⟨more, hm⟩ := h
  rw [output, output, ← hm, List.reverse_append, List.flatMap_append]
  exact List.prefix_append _ _

theorem output_eq_of_printed {m : Machine} {w : World} (h : m.printed = w.printed.map some) : m.output = w.output := by
  rw [Machine.output, World.output, h, ← List.map_reverse, List.flatMap_map]

theorem output_prefix_of_printed {m : Machine} {w : World} (h : m.printed <:+ w.printed.map some) :
    m.output <+: w.output := by
  have ho : ({ m with printed := w.printed.map some } : Machine).output = w.output := output_eq_of_printed rfl
  rw [← ho]
  exact Machine.output_mono h

/-- How a machine agrees with an evaluation.  Until it stops it prints what the evaluation prints; if it halts, divides
by zero or calls a method on `null`, so does the evaluation, with the same output and, if it halts, the same value. -/
def Agrees (r : EStateM.Result Stop World Value) (m : Machine) : Machine.Status → Prop
  | .running | .faulted (.outOfMemory _) => m.output <+: (ending r).output
  | .halted => ∃ v w, r = .ok v w ∧ m.output = w.output ∧ m.top = some v.word
  | .faulted (.divisionByZero _) => ∃ w, r = .error .divisionByZero w ∧ m.output = w.output
  | .faulted (.invalidAddress _ _) => ∃ w, r = .error .nullReceiver w ∧ m.output = w.output
  | .faulted _ => False

section

variable {H : Host} {p : Program} {ty : Ty} {r : EStateM.Result Stop World Value} {m : Machine} {st : Machine.Status}

theorem Concludes.agrees (h : Concludes H p ty r m st) : Agrees r m st := by
  cases h with
  | halts hr _ _ _ hm ho => exact ⟨_, _, hr, output_eq_of_printed ho, hm.cell 0 _ rfl⟩
  | divides hr ho => exact ⟨_, hr, output_eq_of_printed ho⟩
  | null hr _ ho => exact ⟨_, hr, output_eq_of_printed ho⟩
  | starves ho => exact output_prefix_of_printed ho

theorem Concludes.printed (h : Concludes H p ty r m st) : m.printed <:+ (ending r).printed.map some := by
  cases h with
  | halts hr _ _ _ _ ho | divides hr ho | null hr _ ho =>
    rw [ho, hr]
    exact List.suffix_refl _
  | starves ho => exact ho

/-- A run that is known to stop agrees with the evaluation all along. -/
theorem Stops.agrees (h : Stops H p ty r) (fuel : Nat) :
    Agrees r (Machine.run H.instrs fuel (.fresh H.memory)).1 (Machine.run H.instrs fuel (.fresh H.memory)).2 := by
  obtain ⟨n, m, st, hrun, hc⟩ := h
  generalize hf : Machine.run H.instrs fuel (.fresh H.memory) = result
  obtain ⟨m', st'⟩ := result
  by_cases hst : st' = .running
  · subst hst
    exact output_prefix_of_printed ((Machine.printed_of_running hf hrun hc.ne_running).trans hc.printed)
  · obtain ⟨rfl, rfl⟩ := Machine.run_unique hrun hc.ne_running hf hst
    exact hc.agrees

end

/-- **Semantic preservation.**  A source that compiles is a program whose evaluation makes sense, and with any number of
instructions its code agrees with that evaluation, if evaluation may have as many calls pending as the machine has
cells. -/
theorem run_agrees_with_evaluate {source : List Char} {limits : Limits} {c : Compilation}
    (hb : Text.byteLength source ≤ Text.maxInt32) (hm : limits.memory ≤ Text.maxInt32)
    (hl : limits.code ≤ Text.maxInt32) (hc : compile source limits.memory = .ok c) (hs : c.code.size ≤ limits.code) :
    ∃ p, parse source = .ok p ∧ ∀ depth, limits.memory ≤ depth → (∀ w, p.evaluate depth ≠ .error .stuck w) ∧
      ∀ fuel, ∃ m status, run fuel source limits = .ok (c, m, status) ∧ Agrees (p.evaluate depth) m status := by
  obtain ⟨H, p, hmemory, hcode, hp, -, hstops⟩ := compiled_stops hb hm hl hc hs
  refine ⟨p, hp, fun depth hdepth => ⟨(hstops depth hdepth).2, fun fuel => ?_⟩⟩
  have hagrees := (hstops depth hdepth).1.agrees fuel
  rw [Host.instrs, hmemory, hcode] at hagrees
  exact ⟨_, _, run_eq hc hm hl hs fuel, hagrees⟩

deriving instance DecidableEq for Machine.Status

/-- A source whose code calls an overriding method, prints 21 and leaves 42. -/
def doublerSource : List Char :=
  ("let class A (x: int) { fun get: int () x; } class B extends A () { fun get: int () print(x) * 2; } " ++
    "var a: A := new B(21); in a.get();").toList

theorem doublerSource_agrees : ∃ c p m v w, compile doublerSource 100 = .ok c ∧ parse doublerSource = .ok p ∧
    run 66 doublerSource ⟨100, 80⟩ = .ok (c, m, .halted) ∧ p.evaluate 100 = .ok v w ∧ v.word = 42 ∧
      w.output = "21\n".toList := by
  have hcompiles : (compile doublerSource 100).toOption.any (fun c => decide (c.code.size ≤ 80)) = true := by
    decide +kernel
  have hruns : (run 66 doublerSource ⟨100, 80⟩).toOption.any (fun r => decide (r.2.2 = .halted) &&
      (decide (r.2.1.output = "21\n".toList) && decide (r.2.1.top = some 42))) = true := by decide +kernel
  obtain ⟨c, hc, hs⟩ := exists_of_any hcompiles
  obtain ⟨⟨c', m, st⟩, hr, hm⟩ := exists_of_any hruns
  simp only [Bool.and_eq_true, decide_eq_true_eq] at hs hm
  obtain ⟨rfl, hout, htop⟩ := hm
  obtain ⟨p, hp, hagrees⟩ := @run_agrees_with_evaluate doublerSource ⟨100, 80⟩ c (by decide +kernel)
    (by decide) (by decide) hc hs
  obtain ⟨m', st', hr', hag⟩ := (hagrees 100 (Nat.le_refl 100)).2 66
  obtain ⟨rfl, rfl, rfl⟩ : c' = c ∧ m = m' ∧ Machine.Status.halted = st' := by
    rw [hr] at hr'
    simpa using hr'
  obtain ⟨v, w, hv, ho, ht⟩ := hag
  refine ⟨c', p, m, v, w, hc, hp, hr, hv, ?_, by rw [← ho, hout]⟩
  rw [htop] at ht
  exact (Option.some.inj ht).symm

/-! ## Termination -/

/-- **Every compiled program stops**: after so many instructions the machine has halted or faulted for good. -/
theorem compiled_program_stops {source : List Char} {limits : Limits} {c : Compilation}
    (hb : Text.byteLength source ≤ Text.maxInt32) (hm : limits.memory ≤ Text.maxInt32)
    (hl : limits.code ≤ Text.maxInt32) (hc : compile source limits.memory = .ok c) (hs : c.code.size ≤ limits.code) :
    ∃ n m status, status ≠ .running ∧ ∀ fuel, n ≤ fuel → run fuel source limits = .ok (c, m, status) := by
  obtain ⟨H, p, hmemory, hcode, -, -, hstops⟩ := compiled_stops hb hm hl hc hs
  obtain ⟨n, m, st, hrun, hconcludes⟩ := (hstops limits.memory (Nat.le_refl _)).1
  refine ⟨n, m, st, hconcludes.ne_running, fun fuel hfuel => ?_⟩
  rw [Host.instrs, hmemory, hcode] at hrun
  rw [run_eq hc hm hl hs, Machine.run_of_le hrun hconcludes.ne_running hfuel]

/-- A source whose function calls itself without end. -/
def endlessSource : List Char := "let fun f: int () f(); in f();".toList

theorem endlessSource_stops : ∃ c n m status, compile endlessSource 50 = .ok c ∧ status ≠ .running ∧
    ∀ fuel, n ≤ fuel → run fuel endlessSource ⟨50, 50⟩ = .ok (c, m, status) := by
  have hcompiles : (compile endlessSource 50).toOption.any (fun c => decide (c.code.size ≤ 50)) = true := by
    decide +kernel
  obtain ⟨c, hc, hs⟩ := exists_of_any hcompiles
  obtain ⟨n, m, status, hst, hr⟩ := @compiled_program_stops endlessSource ⟨50, 50⟩ c (by decide +kernel)
    (by decide) (by decide) hc (of_decide_eq_true hs)
  exact ⟨c, n, m, status, hc, hst, hr⟩

/-! ## Type soundness -/

/-- An object of a class is created at this address in a run: the instruction that is run is the last one of an
instantiation of the class, and so none that a branch leads to.  The heap ended at the address until then and goes on
behind it now, and the address is left on the stack. -/
def Created (memory : Nat) (c : Compilation) (cls : Ident) (v : Int32) : Prop :=
  ∃ l e args k pre post n m m', Expr.new l cls (some e) args ∈ c.program.nodes ∧
    c.code = pre ++ (Expr.new l cls (some e) args).code memory k ++ post ∧
    Machine.run c.code.link.toArray n (.fresh memory) = (m, .running) ∧
    m.ip + 1 = Code.size (pre ++ (Expr.new l cls (some e) args).code memory k) ∧
    Machine.step c.code.link.toArray m = (m', .running) ∧ m.hp = v ∧ m'.hp = v + 1 ∧ m'.top = some v

/-- The words of the values of a type, where some classes have created objects at some addresses. -/
def Inhabits (h : Hierarchy) (created : Ident → Int32 → Prop) (v : Int32) : Ty → Prop
  | .int => True
  | .bool => v = 0 ∨ v = 1
  | .null => v = -1
  | .ref c => v = -1 ∨ ∃ d, h.isSubtype (.ref d) (.ref c) = true ∧ created d v
  | _ => False

/-- What a compiled program can come to.  Only a division, a full memory, and the load of the dispatch pointer of
`null` are faults; where it halts, the stack holds the global frame and a value of the type of the program. -/
def Behaves (memory : Nat) (p : Program) (c : Compilation) (m : Machine) : Machine.Status → Prop
  | .running | .faulted (.divisionByZero _) | .faulted (.outOfMemory _) => True
  | .halted => ∃ v cells, m.Holds memory (v :: cells) ∧ p.Frame cells ∧
      Inhabits p.classTable.hierarchy (Created memory c) v c.type
  | .faulted (.invalidAddress address ip) => address = -1 ∧ DispatchLoad memory c.code c.program.nodes ip
  | .faulted _ => False

theorem Value.Has.inhabits {h : Hierarchy} {w : World} {v : Value} {t : Ty} {created : Ident → Int32 → Prop}
    (hv : v.Has h w t) (hc : ∀ a o, w.objects.lookup a = some o → created o.cls (Int32.ofNat a)) :
    Inhabits h created v.word t := by
  cases v with
  | int n => cases t <;> trivial
  | bool b =>
    cases t <;> first | trivial | (cases hv; done) | skip
    cases b
    · exact .inl rfl
    · exact .inr rfl
  | null => cases t <;> first | rfl | exact hv.elim | exact .inl rfl
  | ref a =>
    cases t <;> first | exact hv.elim | skip
    obtain ⟨o, ho, hb⟩ := hv
    exact .inr ⟨o.cls, Hierarchy.isSubtype_ref.2 hb, hc a o ho⟩

/-- Where the machine halts, an object was created when it was evaluated. -/
theorem Host.Born.created {H : Host} {P : Plan} {c : Compilation} {cls : Ident} {a n : Nat} {m : Machine}
    (hcode : H.fullCode = c.code) (hsize : H.code.size ≤ Text.maxInt32) (hnodes : P.nodes = c.program.nodes)
    (h : H.Born P cls a)
    (hrun : Machine.run H.instrs n (.fresh H.memory) = (m, .halted)) : Created H.memory c cls (Int32.ofNat a) := by
  obtain ⟨l, e, args, k, rest, s, hs, fp, ra, tm, out, hmem, hf, ⟨pre, hpre⟩, hlast, steps, hreach⟩ := h
  have hnotOut : ∀ {n' : Nat} {m' : Machine} {ip : Nat},
      Machine.run H.instrs n' (.fresh H.memory) ≠ (m', .faulted (.outOfMemory ip)) := fun hr => by
    obtain ⟨-, hst⟩ := Machine.run_unique hrun (by simp) hr (by simp)
    cases hst
  rcases hreach.run hsize H.memory_le with ⟨m', hr, hshows⟩ | ⟨n', m', ip, hr, -⟩
  case inr => exact absurd hr hnotOut
  have hstep := Host.step_shp hshows (Host.instrs_place hlast rfl) rfl
  have hnext := (Machine.run_succ_of_running hr).trans hstep
  rw [Machine.checkRoom] at hstep hnext
  split at hstep
  case isFalse hroom =>
    rw [if_neg hroom] at hnext
    exact absurd hnext hnotOut
  have hfill := Expr.fill_code (k := k) H.memory_le hf
  have hpre' : (pre ++ (Expr.new l cls (some e) args).code Code.mark k) ++ rest = H.code := by
    rw [List.append_assoc]
    exact hpre
  change Machine.run H.fullCode.link.toArray _ _ = _ at hr
  change Machine.step H.fullCode.link.toArray _ = _ at hstep
  rw [hcode] at hr hstep
  refine ⟨l, e, args, k, Code.fill H.memory pre, Code.fill H.memory rest, steps, m', _, hnodes ▸ hmem, ?_, hr, ?_,
    hstep, hshows.hp, Int32.ofNat_add a 1, hshows.stack 1 _ rfl⟩
  · rw [← hcode, Host.fullCode, ← hpre', Code.fill_append, Code.fill_append, hfill]
  · rw [hshows.ip, ← hfill, ← Code.fill_append, Code.size_fill, ← Host.place_of_suffix hpre']
    exact (Host.place_cons hlast rfl).symm

theorem Concludes.behaves {H : Host} {p : Program} {c : Compilation} {r : EStateM.Result Stop World Value} {m : Machine}
    {st : Machine.Status} {n : Nat} (hcode : H.fullCode = c.code) (hsize : H.code.size ≤ Text.maxInt32)
    (hprogram : c.program = p.resolve)
    (hrun : Machine.run H.instrs n (.fresh H.memory) = (m, st)) (h : Concludes H p c.type r m st) :
    Behaves H.memory p c m st := by
  cases h with
  | halts _ hv hrep hframe hholds _ =>
    refine ⟨_, _, hholds, hframe, hv.inhabits fun a o ho => ?_⟩
    exact (hrep.objects a o ho).born.created hcode hsize (congrArg Program.nodes hprogram).symm hrun
  | divides => trivial
  | null _ hload _ =>
    rw [hcode, ← hprogram] at hload
    exact ⟨rfl, hload⟩
  | starves => trivial

/-- **Type soundness.**  A compiled program faults in three ways only, and the value it leaves when it halts has the
type it was compiled with. -/
theorem compiled_program_sound {source : List Char} {limits : Limits} {c : Compilation}
    (hb : Text.byteLength source ≤ Text.maxInt32) (hm : limits.memory ≤ Text.maxInt32)
    (hl : limits.code ≤ Text.maxInt32) (hc : compile source limits.memory = .ok c) (hs : c.code.size ≤ limits.code) :
    ∃ p, parse source = .ok p ∧ ∀ fuel, ∃ m status, run fuel source limits = .ok (c, m, status) ∧
      Behaves limits.memory p c m status := by
  obtain ⟨H, p, hmemory, hcode, hp, hprogram, hstops⟩ := compiled_stops hb hm hl hc hs
  refine ⟨p, hp, fun fuel => ?_⟩
  obtain ⟨n, m, st, hrun, hconcludes⟩ := (hstops limits.memory (Nat.le_refl _)).1
  have hbehaves := hconcludes.behaves hcode (Host.size_of_fullCode hcode hs hl) hprogram hrun
  rw [Host.instrs, hmemory, hcode] at hrun
  rw [hmemory] at hbehaves
  rw [run_eq hc hm hl hs fuel]
  generalize hf : Machine.run c.code.link.toArray fuel (.fresh limits.memory) = result
  obtain ⟨m', st'⟩ := result
  refine ⟨m', st', rfl, ?_⟩
  by_cases hst : st' = .running
  · subst hst
    trivial
  · obtain ⟨rfl, rfl⟩ := Machine.run_unique hrun hconcludes.ne_running hf hst
    exact hbehaves

/-- A source whose value is an object of a class below its type. -/
def joinSource : List Char :=
  "let class A () { } class B extends A () { } in if 1 == 1 then { new B() } else { new A() };".toList

theorem joinSource_sound : ∃ c p m, compile joinSource 50 = .ok c ∧ parse joinSource = .ok p ∧
    run 40 joinSource ⟨50, 60⟩ = .ok (c, m, .halted) ∧ Behaves 50 p c m .halted := by
  have hcompiles : (compile joinSource 50).toOption.any (fun c => decide (c.code.size ≤ 60)) = true := by
    decide +kernel
  have hruns : (run 40 joinSource ⟨50, 60⟩).toOption.any (fun r => decide (r.2.2 = .halted)) = true := by
    decide +kernel
  obtain ⟨c, hc, hs⟩ := exists_of_any hcompiles
  obtain ⟨⟨c', m, st⟩, hr, hst⟩ := exists_of_any hruns
  obtain rfl : st = .halted := of_decide_eq_true hst
  obtain ⟨p, hp, hsound⟩ := @compiled_program_sound joinSource ⟨50, 60⟩ c (by decide +kernel)
    (by decide) (by decide) hc (of_decide_eq_true hs)
  obtain ⟨m', st', hr', hb⟩ := hsound 40
  obtain ⟨rfl, rfl, rfl⟩ : c' = c ∧ m = m' ∧ Machine.Status.halted = st' := by
    rw [hr] at hr'
    simpa using hr'
  exact ⟨c', p, m, hc, hp, hr, hb⟩

end FoolLang
