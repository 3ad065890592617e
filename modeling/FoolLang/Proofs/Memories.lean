import FoolLang.Proofs.Runs
/-!
# Memories — more memory changes no answer

A source is compiled for a memory of a certain size; for another size only the operands change with which
instantiations push it.  Two runs of the same source with different memories go the same way for as long as the smaller
memory lasts, instruction by instruction: the addresses on the stack are shifted, but none of them is ever printed or
compared.  So the run with the larger memory has the same answer unless the smaller one is exhausted
(`more_memory_same_answer`).
-/
namespace FoolLang

/-- What a run with less memory has come to, and with the same number of instructions the run with more memory. -/
def SameAnswer (m : Machine) (st : Machine.Status) (m' : Machine) (st' : Machine.Status) : Prop :=
  match st with
  | .running => st' = .running ∧ m'.output = m.output
  | .halted => st' = .halted ∧ m'.output = m.output ∧ m'.top = m.top ∧ m'.steps = m.steps
  | .faulted (.divisionByZero ip) => st' = .faulted (.divisionByZero ip) ∧ m'.output = m.output
  | .faulted (.invalidAddress a ip) => st' = .faulted (.invalidAddress a ip) ∧ m'.output = m.output
  | .faulted (.outOfMemory _) => m.output <+: m'.output
  | .faulted _ => False

namespace Host

variable {H : Host} {M M' n k : Nat} {c : Config}

/-- After so many instructions the machine with the larger one of two memories has the same answer. -/
def Same (H : Host) (M M' n : Nat) : Prop :=
  SameAnswer (Machine.run (H.instrsFor M) n (.fresh M)).1 (Machine.run (H.instrsFor M) n (.fresh M)).2
    (Machine.run (H.instrsFor M') n (.fresh M')).1 (Machine.run (H.instrsFor M') n (.fresh M')).2

/-- Where both machines have stopped, their answers stay the same. -/
theorem same_of_stopped {m m' : Machine} {st : Machine.Status} (hst : st ≠ .running)
    (hr : Machine.run (H.instrsFor M) n (.fresh M) = (m, st))
    (hr' : Machine.run (H.instrsFor M') n (.fresh M') = (m', st)) (h : SameAnswer m st m' st) (hk : n ≤ k) :
    H.Same M M' k := by
  rw [Same, Machine.run_of_le hr hst hk, Machine.run_of_le hr' hst hk]
  exact h

/-- Once the smaller memory is exhausted, the output of the other machine only grows. -/
theorem same_of_starved {m m' : Machine} {ip : Nat} {st : Machine.Status}
    (hr : Machine.run (H.instrsFor M) n (.fresh M) = (m, .faulted (.outOfMemory ip)))
    (hr' : Machine.run (H.instrsFor M') n (.fresh M') = (m', st)) (hp : m'.printed = m.printed) (hk : n ≤ k) :
    H.Same M M' k := by
  rw [Same, Machine.run_of_le hr (by simp) hk]
  refine Machine.output_mono ?_
  by_cases hst : st = .running
  · subst hst
    obtain ⟨j, rfl⟩ := Nat.exists_eq_add_of_le hk
    rw [Machine.run_add, hr', ← hp]
    exact Machine.printed_run _ j m'
  · rw [Machine.run_of_le hr' hst hk]
    exact ⟨[], hp.symm⟩

/-- **On the way to a configuration the answers are the same** after each instruction. -/
theorem Reached.same (h : H.Reached c) (hsize : H.code.size ≤ Text.maxInt32) (hM : M ≤ M')
    (hM' : M' ≤ Text.maxInt32) : ∀ k ≤ c.steps, H.Same M M' k := by
  induction h with
  | start =>
    intro k hk
    obtain rfl : k = 0 := Nat.le_zero.1 hk
    exact ⟨rfl, rfl⟩
  | @step c c' hc hs ih =>
    intro k hk
    rw [hs.steps] at hk
    rcases Nat.lt_or_eq_of_le hk with hlt | rfl
    · exact ih k (Nat.le_of_lt_succ hlt)
    · rw [← hs.steps] at hk ⊢
      rcases (hc.step hs).lockstep hsize hM hM' with ⟨m, m', hr, hm, hr', hm'⟩ | ⟨n, m, ip, m', st, hn, hr, hr', hp, -⟩
      · rw [Same, hr, hr']
        exact ⟨rfl, Machine.output_congr (hm'.printed.trans hm.printed.symm)⟩
      · exact same_of_starved hr hr' hp hn
  | stranded _ hs => exact absurd hsize (Nat.not_le.2 hs.large)

/-- The answers are the same for good where all machines that get to a configuration stop alike. -/
theorem Reached.same_of_stops (h : H.Reached c) (hsize : H.code.size ≤ Text.maxInt32) (hM : M ≤ M')
    (hM' : M' ≤ Text.maxInt32) {st : Machine.Status} (hst : st ≠ .running)
    (hend : ∀ m m', m.Shows M c → m'.Shows M' c → ∃ d d', Machine.step (H.instrsFor M) m = (d, st) ∧
      Machine.step (H.instrsFor M') m' = (d', st) ∧ SameAnswer d st d' st) (k : Nat) : H.Same M M' k := by
  rcases Nat.lt_or_ge c.steps k with hk | hk
  · rcases h.lockstep hsize hM hM' with ⟨m, m', hr, hm, hr', hm'⟩ | ⟨n, m, ip, m', st', hn, hr, hr', hp, -⟩
    · obtain ⟨d, d', hs, hs', hd⟩ := hend m m' hm hm'
      exact same_of_stopped hst ((Machine.run_succ_of_running hr).trans hs)
        ((Machine.run_succ_of_running hr').trans hs') hd hk
    · exact same_of_starved hr hr' hp (by omega)
  · exact h.same hsize hM hM' k hk

theorem Faulted.same {f : Fault} {out : List Int32} (h : H.Faulted f out) (hsize : H.code.size ≤ Text.maxInt32)
    (hM : M ≤ M') (hM' : M' ≤ Text.maxInt32)
    (hf : ∀ m m', m'.output = m.output → SameAnswer m (.faulted f) m' (.faulted f)) (k : Nat) : H.Same M M' k := by
  obtain ⟨c, hreached, -, -, hfault⟩ := h
  have hstopped : Machine.Status.faulted f ≠ .running := by simp
  refine hreached.same_of_stops hsize hM hM' hstopped (fun m m' hm hm' => ?_) k
  obtain ⟨d, hs, hp⟩ := hfault M m (Nat.le_trans hM hM') hm
  obtain ⟨d', hs', hp'⟩ := hfault M' m' hM' hm'
  exact ⟨d, d', hs, hs', hf _ _ (Machine.output_congr (hp'.trans hp.symm))⟩

/-- **Two machines whose code does what an evaluation does have the same answer.** -/
theorem Outcome.same {p : Program} {ty : Ty} {r : EStateM.Result Stop World Value}
    (h : H.Outcome p.plan r fun v w => v.Has p.classTable.hierarchy w ty ∧ p.Leaves H v w)
    (hsize : H.code.size ≤ Text.maxInt32) (hM : M ≤ M') (hM' : M' ≤ H.memory) (k : Nat) : H.Same M M' k := by
  have hmax := Nat.le_trans hM' H.memory_le
  cases r with
  | ok v w =>
    obtain ⟨-, cells, hs, fp, ra, tm, after, -, -, hat⟩ := h
    obtain ⟨n, hreached⟩ := hat.2
    refine hreached.same_of_stops hsize hM hmax (show Machine.Status.halted ≠ .running by simp) (fun m m' hm hm' =>
      ⟨_, _, step_halt hm (instrs_place hat.1 rfl), step_halt hm' (instrs_place hat.1 rfl), rfl, ?_, ?_, ?_⟩) k
    · exact Machine.output_congr (hm'.printed.trans hm.printed.symm)
    · exact (hm'.stack 0 v.cell rfl).trans (hm.stack 0 v.cell rfl).symm
    · exact congrArg Nat.succ (hm'.steps.trans hm.steps.symm)
  | error e w =>
    cases e with
    | exhausted =>
      -- what is reached fits neither memory, so the smaller one is exhausted on the way
      obtain ⟨c, hreached, hlen, -⟩ := h
      rcases hreached.lockstep hsize hM hmax with ⟨m, -, -, hm, -⟩ | ⟨n, m, ip, m', st, hn, hr, hr', hp, -⟩
      · have hsp := hm.sp
        omega
      · rcases Nat.le_total k c.steps with hk | hk
        · exact hreached.same hsize hM hmax k hk
        · exact same_of_starved hr hr' hp (Nat.le_trans hn hk)
    | divisionByZero =>
      obtain ⟨ip, hfault⟩ := h
      exact hfault.same hsize hM hmax (fun _ _ ho => ⟨rfl, ho⟩) k
    | nullReceiver =>
      obtain ⟨ip, -, hfault⟩ := h
      exact hfault.same hsize hM hmax (fun _ _ ho => ⟨rfl, ho⟩) k
    | stuck => exact h.elim

end Host

/-- A source that compiles for one memory compiles for all, to code of the same program. -/
theorem compile_of_compile {source : List Char} {M : Nat} {c : Compilation} (hc : compile source M = .ok c) (M' : Nat) :
    c.code = c.program.code M ∧ compile source M' = .ok ⟨c.program, c.type, c.program.code M'⟩ := by
  obtain ⟨p, ty, hp, hd, hty, rfl⟩ := compile_ok hc
  refine ⟨rfl, ?_⟩
  rw [compile_of_parse hp, Program.compile, hd, hty, Program.generate_of_diagnostics hd]
  rfl

/-- **More memory never changes an answer.**  A source that compiles for a memory compiles for a larger one to code that
differs at most in the lines where instantiations push the size.  With any number of instructions the two runs go the
same way: if the one with less memory halts, so does the other, with the same output, top and number of steps; if it
divides by zero or calls a method on `null`, the other faults at the same instruction after the same output; and if it
runs out of memory, its output is a part of what the other prints. -/
theorem more_memory_same_answer {source : List Char} {M M' size : Nat} {c : Compilation}
    (hb : Text.byteLength source ≤ Text.maxInt32) (hM : M ≤ M') (hM' : M' ≤ Text.maxInt32)
    (hl : size ≤ Text.maxInt32) (hc : compile source M = .ok c) (hs : c.code.size ≤ size) :
    ∃ c', compile source M' = .ok c' ∧ c'.code.length = c.code.length ∧
      (∀ i, c.code[i]? = c'.code[i]? ∨
        (c.code[i]? = some (.push M) ∧ PushesMemory M c.program.nodes c.code i) ∧
          c'.code[i]? = some (.push M') ∧ PushesMemory M' c.program.nodes c'.code i) ∧
      ∀ fuel, ∃ m st m' st', run fuel source ⟨M, size⟩ = .ok (c, m, st) ∧
        run fuel source ⟨M', size⟩ = .ok (c', m', st') ∧ SameAnswer m st m' st' := by
  have hMmax := Nat.le_trans hM hM'
  obtain ⟨hcode, hc'⟩ := compile_of_compile hc M'
  obtain ⟨p, hp, hprogram, hfill, haddr, houtcome⟩ :=
    outcome_compiled hb hMmax hc (Code.addressable_of_size (Nat.le_trans hs hl))
  have halike := c.program.alike_code M M'
  rw [← hcode] at halike
  have hinstrs : ∀ memory, memory ≤ Text.maxInt32 →
      (p.host M' hM' haddr).instrsFor memory = (c.program.code memory).link.toArray := fun memory hm => by
    rw [Host.instrsFor, hprogram, ← hfill memory hm]
    rfl
  have hfits : (c.program.code M').size ≤ size := by
    rw [hprogram, ← hfill M' hM', Code.size_fill]
    rwa [hcode, hprogram, ← hfill M hMmax, Code.size_fill] at hs
  refine ⟨_, hc', halike.length.symm, fun i => ?_, fun fuel => ?_⟩
  · exact (halike.lines i).imp_right fun h => ⟨⟨h.1.getElem?, h.1⟩, h.2.getElem?, h.2⟩
  · have hsize : (p.host M' hM' haddr).code.size ≤ Text.maxInt32 := by
      rw [← Code.size_fill (M := M'), show (p.host M' hM' haddr).code.fill M' = c.program.code M' from
        (hfill M' hM').trans (by rw [hprogram])]
      exact Nat.le_trans hfits hl
    have hsame := (houtcome M' hM' M' (Nat.le_refl _)).same hsize hM (Nat.le_refl _) fuel
    rw [Host.Same, hinstrs M hMmax, hinstrs M' hM'] at hsame
    refine ⟨_, _, _, _, ?_, @run_eq source ⟨M', size⟩ _ hc' hM' hl hfits fuel, hsame⟩
    rw [@run_eq source ⟨M, size⟩ c hc hMmax hl hs, hcode]

/-- A source that creates an object and calls a method of it. -/
def boxSource : List Char :=
  "let class Box (x: int) { fun get: int () x; } var b: Box := new Box(7); in print(b.get());".toList

theorem boxSource_same_answer : ∃ c' m', compile boxSource 1000000 = .ok c' ∧
    run 60 boxSource ⟨1000000, 70⟩ = .ok (c', m', .halted) ∧ m'.output = "7\n".toList ∧ m'.top = some 7 := by
  have hcompiles : (compile boxSource 20).toOption.any (fun c => decide (c.code.size ≤ 70)) = true := by
    decide +kernel
  have hruns : (run 60 boxSource ⟨20, 70⟩).toOption.any (fun r => decide (r.2.2 = .halted) &&
      (decide (r.2.1.output = "7\n".toList) && decide (r.2.1.top = some 7))) = true := by decide +kernel
  obtain ⟨c, hc, hs⟩ := exists_of_any hcompiles
  obtain ⟨⟨c₁, m₁, st₁⟩, hr₁, hm⟩ := exists_of_any hruns
  simp only [Bool.and_eq_true, decide_eq_true_eq] at hs hm
  obtain ⟨rfl, hout, htop⟩ := hm
  obtain ⟨c', hc', -, -, hsame⟩ := @more_memory_same_answer boxSource 20 1000000 70 c (by decide +kernel) (by decide)
    (by decide) (by decide) hc hs
  obtain ⟨m, st, m', st', hr, hr', ha⟩ := hsame 60
  obtain ⟨rfl, rfl, rfl⟩ : c₁ = c ∧ m₁ = m ∧ Machine.Status.halted = st := by
    rw [hr₁] at hr
    simpa using hr
  obtain ⟨rfl, houtput, htop', -⟩ := ha
  exact ⟨c', m', hc', hr', houtput.trans hout, htop'.trans htop⟩

end FoolLang
