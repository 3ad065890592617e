import FoolLang.Proofs.Activations
import FoolLang.Proofs.Blocks
import FoolLang.Proofs.Unaddressable
/-!
# ControlFlow — branches that go forward and stay in their block

In the instructions that a code is linked to, each block is a stretch of its own.  A branch goes to a higher address in
the same stretch, and the last instruction is `halt` or a jump, so a machine goes down its block until it jumps or
stops (`ClosedBlock.run`).  All of it holds of the blocks of every program that there is code for
(`control_stays_in_blocks`).
-/
namespace FoolLang

open Assembly

/-! ## Codes that assemble -/

namespace Code

variable {code : Code}

/-- Where not all lines fit 32 bits, there is a first one that does not. -/
theorem exists_unfit : ∀ {code : Code}, ¬(∀ l ∈ code, l.Fits) → ∃ pre n post, code = pre ++ .push n :: post ∧
    (∀ l ∈ pre, l.Fits) ∧ ¬FitsWord n
  | [], h => absurd nofun h
  | line :: code, h => by
    by_cases hline : line.Fits
    · have hcode : ¬∀ l ∈ code, l.Fits := fun hcode => h (List.forall_mem_cons.2 ⟨hline, hcode⟩)
      obtain ⟨pre, n, post, rfl, hpre, hn⟩ := exists_unfit hcode
      exact ⟨line :: pre, n, post, rfl, List.forall_mem_cons.2 ⟨hline, hpre⟩, hn⟩
    · cases line with
      | push n => exact ⟨[], n, code, rfl, nofun, hline⟩
      | _ => exact absurd trivial hline

/-- **What assembles is linked**, if no label is defined twice. -/
theorem link_of_assemble (honce : ∀ l, code.count (.define l) ≤ 1) {limit : Nat} {instrs : List Instr}
    (ha : assemble code.text limit = .ok instrs) : instrs = code.link := by
  have hfits : ∀ l ∈ code, l.Fits := by
    by_contra hn
    obtain ⟨pre, n, post, rfl, hpre, hn⟩ := exists_unfit hn
    have hpreOnce : ∀ l, pre.count (.define l) ≤ 1 := fun l =>
      Nat.le_trans ((List.sublist_append_left pre _).count_le _) (honce l)
    rw [assemble_unfit hpre hpreOnce hn] at ha
    cases ha
  obtain ⟨ss, hspells, hof⟩ := exists_spells hfits (reads_text hfits code.text.length 1 (Nat.le_refl _))
  have hnodup := nodup_definitions_of hof honce
  rcases ss.resolved_or_first with hres | ⟨e, he⟩
  · rw [assemble_of_resolved hspells hnodup hres, link_of hof] at ha
    split at ha
    · exact (Except.ok.inj ha).symm
    · cases ha
  · rw [assemble_of_unresolved hspells hnodup he] at ha
    cases ha

/-! ## Where blocks lie -/

/-- A block of a code holds the instructions from `start` on, those before `stop`. -/
def Spans (code block : Code) (start stop : Nat) : Prop :=
  ∃ before after, code.blocks = before ++ block :: after ∧ start = size before.flatten ∧ stop = start + block.size

theorem exists_block : ∀ {blocks : List Code} {a : Nat}, a < size blocks.flatten → ∃ before block after,
    blocks = before ++ block :: after ∧ size before.flatten ≤ a ∧ a < size before.flatten + block.size
  | [], _, h => absurd h (Nat.not_lt_zero _)
  | block :: blocks, a, h => by
    rw [List.flatten_cons, size_append] at h
    by_cases ha : a < block.size
    · exact ⟨[], block, blocks, rfl, Nat.zero_le _, by simpa using ha⟩
    · have hrest : a - block.size < size blocks.flatten := by omega
      obtain ⟨before, found, after, rfl, hle, hlt⟩ := exists_block hrest
      refine ⟨block :: before, found, after, rfl, ?_⟩
      rw [List.flatten_cons, size_append]
      omega

/-- **Each instruction lies in a block.** -/
theorem exists_spans {a : Nat} (h : a < code.size) :
    ∃ block start stop, code.Spans block start stop ∧ start ≤ a ∧ a < stop := by
  rw [← code.flatten_blocks] at h
  obtain ⟨before, block, after, hblocks, hle, hlt⟩ := exists_block h
  exact ⟨block, _, _, ⟨before, after, hblocks, rfl, rfl⟩, hle, hlt⟩

/-- Each instruction is that of a line. -/
theorem exists_line : ∀ {code : Code} {a : Nat}, a < code.size →
    ∃ (pre : Code) (line : Line) (rest : Code), code = pre ++ line :: rest ∧ pre.size = a ∧ line.isInstr = true
  | [], _, h => absurd h (Nat.not_lt_zero _)
  | line :: code, a, h => by
    rw [size_cons] at h
    cases hline : line.isInstr with
    | false =>
      rw [hline] at h
      obtain ⟨pre, found, rest, rfl, hsize, hfound⟩ := exists_line h
      exact ⟨line :: pre, found, rest, rfl, by rw [size_cons, hsize, hline]; rfl, hfound⟩
    | true =>
      rw [hline, if_pos rfl] at h
      cases a with
      | zero => exact ⟨[], line, code, rfl, rfl, hline⟩
      | succ a =>
        obtain ⟨pre, found, rest, rfl, hsize, hfound⟩ := exists_line (Nat.lt_of_succ_lt_succ h)
        exact ⟨line :: pre, found, rest, rfl, by rw [size_cons, hsize, hline]; rfl, hfound⟩

namespace Spans

variable {block : Code} {start stop : Nat}

/-- The code around a line of a block. -/
theorem split (h : code.Spans block start stop) {pre rest : Code} {line : Line} (hblock : block = pre ++ line :: rest) :
    ∃ before after : Code, before ++ pre ++ line :: (rest ++ after) = code ∧ before.size = start := by
  obtain ⟨before, after, hblocks, hstart, -⟩ := h
  refine ⟨before.flatten, after.flatten, ?_, hstart.symm⟩
  rw [← code.flatten_blocks, hblocks, hblock]
  simp

theorem stop_eq (h : code.Spans block start stop) : stop = start + block.size := by
  obtain ⟨-, -, -, -, hstop⟩ := h
  exact hstop

/-- An instruction of a block is that of a line of the block. -/
theorem exists_line (h : code.Spans block start stop) {a : Nat} {i : Instr} (hstart : start ≤ a) (hstop : a < stop)
    (hi : code.link[a]? = some i) : ∃ (pre : Code) (line : Line) (rest : Code), block = pre ++ line :: rest ∧
      start + pre.size = a ∧ line.instr? code.address = some i := by
  have hsize := h.stop_eq
  have hin : a - start < block.size := by omega
  obtain ⟨pre, line, rest, hblock, hpre, hline⟩ := Code.exists_line hin
  have ha : start + pre.size = a := by omega
  obtain ⟨before, after, hcode, hbefore⟩ := h.split hblock
  obtain ⟨j, hj⟩ := Option.isSome_iff_exists.1 ((line.isSome_instr? code.address).trans hline)
  have hlink := getElem?_link hcode hj
  rw [size_append, hbefore, ha, hi] at hlink
  exact ⟨pre, line, rest, hblock, ha, hj.trans hlink.symm⟩

theorem address_eq (h : code.Spans block start stop) (honce : ∀ l, code.count (.define l) ≤ 1) {pre rest : Code}
    {l : Label} (hblock : block = pre ++ .define l :: rest) : code.address l = start + pre.size := by
  obtain ⟨before, after, hcode, hbefore⟩ := h.split hblock
  rw [address_of_define hcode (honce l), size_append, hbefore]

/-- **The label of a routine stands for the start of its block.** -/
theorem address_entry (h : code.Spans block start stop) (honce : ∀ l, code.count (.define l) ≤ 1) {n : Nat}
    (hhead : block.head? = some (.define (.routine n))) : code.address (.routine n) = start := by
  obtain ⟨rest, hblock⟩ : ∃ rest, block = [] ++ .define (.routine n) :: rest := List.head?_eq_some_iff.1 hhead
  exact h.address_eq honce hblock

end Spans

/-- After the definition of a label there is an instruction, if the code ends with one. -/
theorem pos_size_of_getLast? {pre tail : Code} {l : Label} {last : Op}
    (h : (pre ++ .define l :: tail).getLast? = some (.op last)) : 0 < tail.size := by
  rcases List.eq_nil_or_concat' tail with rfl | ⟨front, line, rfl⟩
  · rw [List.getLast?_concat] at h
    cases h
  · rw [← List.cons_append, ← List.append_assoc, List.getLast?_concat] at h
    obtain rfl := Option.some.inj h
    rw [size_append, size_op]
    exact Nat.succ_pos _

end Code

/-! ## Closed blocks -/

/-- The instructions from `start` on, those before `stop`: branches go further on among them, and the last one is this
operation. -/
structure ClosedBlock (instrs : List Instr) (start stop : Nat) (last : Op) : Prop where
  nonempty : start < stop
  ends : instrs[stop - 1]? = some (.op last)
  forward : ∀ a b t, start ≤ a → a < stop → instrs[a]? = some (.branch b t) → a < t ∧ t < stop

theorem Line.eq_branch_of_instr? {address : Label → Nat} {line : Line} {b : Branch} {t : Nat}
    (h : line.instr? address = some (.branch b t)) : ∃ l, line = .branch b l ∧ t = address l := by
  cases line with
  | branch c l =>
    cases h
    exact ⟨l, rfl, rfl⟩
  | _ => cases h

/-- **Branches that go down in a block go forward in its instructions**, and not past the last one. -/
theorem Code.Spans.closed {code block : Code} {start stop : Nat} (h : code.Spans block start stop)
    (honce : ∀ l, code.count (.define l) ≤ 1) (hforward : block.Forward) {last : Op}
    (hlast : block.getLast? = some (.op last)) : ClosedBlock code.link start stop last := by
  have hstop := h.stop_eq
  obtain ⟨front, hfront⟩ : ∃ front : Code, block = front ++ [.op last] := List.getLast?_eq_some_iff.1 hlast
  have hsize : block.size = front.size + 1 := by
    rw [hfront, size_append]
    rfl
  refine ⟨by omega, ?_, fun a b t hstart ha hbranch => ?_⟩
  · obtain ⟨before, after, hcode, hbefore⟩ := h.split hfront
    have hlink := getElem?_link (i := .op last) hcode rfl
    rwa [size_append, hbefore, show start + front.size = stop - 1 by omega] at hlink
  · obtain ⟨pre, line, rest, hblock, rfl, hi⟩ := h.exists_line hstart ha hbranch
    obtain ⟨l, rfl, rfl⟩ := Line.eq_branch_of_instr? hi
    -- the label is defined further down, and behind it there is the last line at least
    obtain ⟨mid, tail, rfl⟩ := List.append_of_mem (hforward b l rest ⟨pre, hblock.symm⟩)
    have hdefine : block = (pre ++ .branch b l :: mid) ++ .define l :: tail := by
      rw [hblock, List.append_assoc, List.cons_append]
    have htail : 0 < size tail := pos_size_of_getLast? (hdefine ▸ hlast)
    have haddress := h.address_eq honce hdefine
    have htotal : block.size = pre.size + (size mid + 1) + size tail := by
      rw [hdefine, size_append, size_append, size_branch, size_define]
    rw [size_append, size_branch] at haddress
    omega

namespace ClosedBlock

variable {instrs : List Instr} {start stop : Nat} {last : Op} {m m' : Machine}

/-- A step inside a block goes further on in it, unless it jumps. -/
theorem step (h : ClosedBlock instrs start stop last) (hlast : last = .halt ∨ last = .js) (hin : start ≤ m.ip)
    (hout : m.ip < stop) (hs : Machine.step instrs.toArray m = (m', .running))
    (hjs : instrs[m.ip]? ≠ some (.op .js)) : m.ip < m'.ip ∧ m'.ip < stop := by
  have hget : instrs.toArray[m.ip]? = instrs[m.ip]? := List.getElem?_toArray
  cases hi : instrs[m.ip]? with
  | none =>
    rw [Machine.step, hget, hi] at hs
    cases hs
  | some i =>
    rw [← hget] at hi
    have hne : i ≠ .op .js := fun he => hjs (by rw [← hget, hi, he])
    rcases (Machine.step_moves hs hi hne).ip with ⟨hip, -⟩ | ⟨b, rfl⟩
    · have hinner : m.ip ≠ stop - 1 := fun he => by
        rw [hget, he, h.ends] at hi
        obtain rfl := Option.some.inj hi
        rcases hlast with rfl | rfl
        · exact (Machine.step_ok hs (by rw [hget, he, h.ends])).1 rfl
        · exact hne rfl
      omega
    · exact h.forward _ b _ hin hout (hget ▸ hi)

/-- **A machine goes down its block until it jumps or stops.** -/
theorem run (h : ClosedBlock instrs start stop last) (hlast : last = .halt ∨ last = .js) : ∀ (n : Nat) {m : Machine},
    start ≤ m.ip → m.ip < stop → Machine.run instrs.toArray n m = (m', .running) →
    (∀ i < n, instrs[(Machine.run instrs.toArray i m).1.ip]? ≠ some (.op .js)) → m.ip + n ≤ m'.ip ∧ m'.ip < stop
  | 0, m, _, hout, hr, _ => by
    cases hr
    exact ⟨Nat.le_refl _, hout⟩
  | n + 1, m, hin, hout, hr, hjs => by
    rw [Machine.run] at hr
    split at hr
    · rename_i next hs
      obtain ⟨hlt, hnext⟩ := h.step hlast hin hout hs (hjs 0 (Nat.succ_pos n))
      have hrest : ∀ i < n, instrs[(Machine.run instrs.toArray i next).1.ip]? ≠ some (.op .js) := fun i hi => by
        have hstep := hjs (i + 1) (Nat.succ_lt_succ hi)
        rwa [Machine.run, hs] at hstep
      obtain ⟨hle, hend⟩ := run h hlast n (by omega) hnext hr hrest
      exact ⟨by omega, hend⟩
    · rename_i hs
      exact absurd hr (hs m')

end ClosedBlock

/-! ## The blocks of a program -/

namespace Program

variable (p : Program) (memory : Nat)

theorem definedOnce (l : Label) : (p.code memory).count (.define l) ≤ 1 := by
  rw [count_define_program]
  exact l.among_le_one _ _ _ _

/-- The main block lies at the start of the code, and the block of a routine does not. -/
theorem spans_cases {block : Code} {start stop : Nat} (h : (p.code memory).Spans block start stop) :
    (start = 0 ∧ block = p.mainCode memory ++ [.op .halt]) ∨ ∃ r ∈ p.emitted, start ≠ 0 ∧ block = r.code memory := by
  obtain ⟨before, after, hblocks, rfl, -⟩ := h
  rw [p.blocks_code] at hblocks
  cases before with
  | nil => exact .inl ⟨rfl, (List.cons.inj hblocks).1.symm⟩
  | cons main before =>
    obtain ⟨hmain, hblocks⟩ := List.cons.inj hblocks
    have hblock : block ∈ p.emitted.map (Emitted.code memory) := by simp [hblocks]
    obtain ⟨r, hr, rfl⟩ := List.mem_map.1 hblock
    refine .inr ⟨r, hr, ?_, rfl⟩
    rw [← hmain, List.flatten_cons, Code.size_append, Code.size_append, Code.size_op]
    omega

/-- **The blocks of a program are closed**, the main one by `halt` and the others by `js`. -/
theorem closed_of_spans {block : Code} {start stop : Nat} (h : (p.code memory).Spans block start stop) :
    ClosedBlock (p.code memory).link start stop (if start = 0 then .halt else .js) := by
  have hop : ∀ o, Code.Forward [.op o] := fun o => .cons nofun .nil
  rcases p.spans_cases memory h with ⟨h0, rfl⟩ | ⟨r, -, h0, rfl⟩
  · rw [if_pos h0]
    exact h.closed (p.definedOnce memory) ((p.inner_mainCode memory).forward.append (hop .halt)) List.getLast?_concat
  · rw [if_neg h0]
    have hforward : (r.code memory).Forward := by
      rw [r.code_eq]
      exact .cons nofun ((r.inner_innerCode memory).forward.append (hop .js))
    have hlast : (r.code memory).getLast? = some (.op .js) := by
      rw [r.code_eq, ← List.cons_append]
      exact List.getLast?_concat
    exact h.closed (p.definedOnce memory) hforward hlast

/-- A line that does not stand inside a block starts a routine or ends the program. -/
theorem line_cases {line : Line} (hl : line ∈ p.code memory) :
    line.isInner = true ∨ line.isEntry = true ∨ line = .op .halt := by
  rw [p.code_eq_flatten, List.flatten_cons, List.mem_append] at hl
  rcases hl with hl | hl
  · rcases List.mem_append.1 hl with hl | hl
    · exact .inl ((p.inner_mainCode memory).lines line hl)
    · exact .inr (.inr (List.mem_singleton.1 hl))
  · obtain ⟨block, hblock, hl⟩ := List.mem_flatten.1 hl
    obtain ⟨r, -, rfl⟩ := List.mem_map.1 hblock
    rw [r.code_eq] at hl
    rcases List.mem_cons.1 hl with rfl | hl
    · exact .inr (.inl rfl)
    · rcases List.mem_append.1 hl with hl | hl
      · exact .inl ((r.inner_innerCode memory).lines line hl)
      · obtain rfl := List.mem_singleton.1 hl
        exact .inl rfl

/-- **The label of a routine is used to be pushed only.** -/
theorem uses_routine {line : Line} (hl : line ∈ p.code memory) {n : Nat} (hn : line.uses (.routine n) = true) :
    line = .pushLabel (.routine n) := by
  cases line with
  | pushLabel l => exact congrArg Line.pushLabel (eq_of_beq hn)
  | branch b l =>
    obtain rfl : l = .routine n := eq_of_beq hn
    rcases p.line_cases memory hl with h | h | h <;> cases h
  | _ => cases hn

end Program

/-- **Control goes forward and stays in its block.**  The code of a program falls into a main block, up to `halt`, and a
block for each routine, from its label to its last `js`; the block of a routine that is declared inside another one
comes before that of the outer one as a whole.  The labels of routines are only ever pushed.  Once the code is
assembled, each instruction lies in a block, which starts where the label of its routine stands for and ends with
`halt` or `js`.  Branches go to higher addresses in the same block, so that a machine that does not jump goes down the
block it is in, and never past its end. -/
theorem control_stays_in_blocks {p : Program} {memory : Nat} {code : Code} (hg : p.generate memory = .ok code) :
    code.blocks = (p.mainCode memory ++ [.op .halt]) :: p.emitted.map (Emitted.code memory) ∧
    (p.emitted.map Emitted.number).Perm (List.range p.routines) ∧
    .op .halt ∉ p.mainCode memory ∧
    (∀ r ∈ p.emitted, .op .halt ∉ r.code memory ∧
      r.code memory = .define (.routine r.number) :: (r.innerCode memory ++ [.op .js])) ∧
    (∀ line ∈ code, ∀ n, line.uses (.routine n) = true → line = .pushLabel (.routine n)) ∧
    (memory ≤ Text.maxInt32 → (∀ n ∈ p.nodes, n.OffsetsFit) → code.size ≤ Text.maxInt32 → ∀ limit, code.size ≤ limit →
      assemble code.text limit = .ok code.link) ∧
    ∀ limit instrs, assemble code.text limit = .ok instrs →
      (∀ a < instrs.length, ∃ block start stop, code.Spans block start stop ∧ start ≤ a ∧ a < stop) ∧
      ∀ block start stop, code.Spans block start stop →
        (∀ n, block.head? = some (.define (.routine n)) → code.address (.routine n) = start) ∧
        ClosedBlock instrs start stop (if start = 0 then .halt else .js) ∧
        ∀ (n : Nat) (m m' : Machine), start ≤ m.ip → m.ip < stop →
          Machine.run instrs.toArray n m = (m', .running) →
          (∀ i < n, instrs[(Machine.run instrs.toArray i m).1.ip]? ≠ some (.op .js)) →
          m.ip + n ≤ m'.ip ∧ m'.ip < stop := by
  obtain rfl := Program.generate_eq_code hg
  have hhalt : ∀ {c : Code}, c.Inner → .op .halt ∉ c := fun h hm => nomatch h.lines _ hm
  refine ⟨p.blocks_code memory, p.emitted_numbers, hhalt (p.inner_mainCode memory), fun r _ => ⟨?_, r.code_eq memory⟩,
    fun line hl n hn => p.uses_routine memory hl hn, fun hm hfit hsize limit hlimit => ?_, fun limit instrs ha => ?_⟩
  · rw [r.code_eq]
    simpa using hhalt (r.inner_innerCode memory)
  · rw [(wellFormed_program hm hfit).assemble_text hsize, if_pos hlimit]
  · obtain rfl := Code.link_of_assemble (p.definedOnce memory) ha
    refine ⟨fun a hlt => Code.exists_spans (Code.length_link _ ▸ hlt), fun block start stop h => ?_⟩
    have hclosed := p.closed_of_spans memory h
    refine ⟨fun n hhead => h.address_entry (p.definedOnce memory) hhead, hclosed, fun n m m' => hclosed.run ?_ n⟩
    split
    · exact .inl rfl
    · exact .inr rfl

/-- A source with a function in a method, two conditionals, two comparisons and a conjunction. -/
def branchingSource : List Char :=
  "let class A () { fun f: int (x: int) let fun g: int () if (x == 0) then { 1 } else { 2 }; in g(); } ".toList ++
    "var a: A := new A(); in if (a.f(3) == 2 && true) then { 1 } else { 0 };".toList

/-- The function has the second of three blocks, before the method.  It is entered after 46 instructions, and 21 more
lead down to its `js` at 76. -/
theorem branchingSource_in_blocks : ∃ p code instrs block m m', parse branchingSource = .ok p ∧
    p.resolve.generate 100 = .ok code ∧ assemble code.text 10000 = .ok instrs ∧
    code.blocks.map Code.size = [53, 24, 21] ∧ p.resolve.emitted.map Emitted.number = [1, 0] ∧
    instrs.countP (fun i => i matches .branch _ _) = 11 ∧
    block.head? = some (.define (.routine 1)) ∧ code.Spans block 53 77 ∧ code.address (.routine 1) = 53 ∧
    ClosedBlock instrs 53 77 .js ∧ m.ip = 53 ∧ Machine.run instrs.toArray 21 m = (m', .running) ∧ 74 ≤ m'.ip ∧
    m'.ip < 77 := by
  have hparsed : (parse branchingSource).toOption.any (fun p =>
      let code := p.resolve.code 100
      let m := (Machine.run code.link.toArray 46 (.fresh 100)).1
      decide (p.resolve.unresolved = [] ∧ p.resolve.emitted.map Emitted.number = [1, 0] ∧ code.size = 98 ∧
        code.blocks.map (fun block => (block.size, block.head?)) =
          [(53, some (.push 0)), (24, some (.define (.routine 1))), (21, some (.define (.routine 0)))] ∧
        code.link.countP (fun i => i matches .branch _ _) = 11 ∧ m.ip = 53 ∧
        (∀ i < 21, code.link[(Machine.run code.link.toArray i m).1.ip]? ≠ some (.op .js)) ∧
        (Machine.run code.link.toArray 21 m).2 = .running)) = true := by
    decide +kernel
  obtain ⟨p, hp, hm⟩ := exists_of_any hparsed
  obtain ⟨hunresolved, hnumbers, hsize, hblocks, hbranches, hip, hjs, hrunning⟩ := of_decide_eq_true hm
  have hg : p.resolve.generate 100 = .ok (p.resolve.code 100) := by rw [Program.generate, hunresolved]
  obtain ⟨-, -, -, -, -, hassembles, hall⟩ := control_stays_in_blocks hg
  have ha := hassembles (by decide) (Program.resolve_fits (offsetsFit_of_parse hp)) (by rw [hsize]; decide) 10000
    (by rw [hsize]; decide)
  obtain ⟨main, rest, hcut, hmain, hrest⟩ := List.map_eq_cons_iff.1 hblocks
  obtain ⟨block, rest, rfl, hblock, hrest⟩ := List.map_eq_cons_iff.1 hrest
  obtain ⟨hmainSize, -⟩ := Prod.mk.inj hmain
  obtain ⟨hblockSize, hhead⟩ := Prod.mk.inj hblock
  have hspans : (p.resolve.code 100).Spans block 53 77 :=
    ⟨[main], rest, hcut, by simpa using hmainSize.symm, by rw [hblockSize]⟩
  obtain ⟨haddress, hclosed, hrun⟩ := (hall _ _ ha).2 block 53 77 hspans
  obtain ⟨hdown, hend⟩ := hrun 21 _ _ (Nat.le_of_eq hip.symm) (by rw [hip]; decide) (Prod.ext rfl hrunning) hjs
  rw [hip] at hdown
  have hsizes : (p.resolve.code 100).blocks.map Code.size = [53, 24, 21] := by
    have hfirst := congrArg (List.map Prod.fst) hblocks
    rw [List.map_map] at hfirst
    exact hfirst
  exact ⟨p, _, _, block, _, _, hp, hg, ha, hsizes, hnumbers, hbranches, hhead, hspans, haddress 1 hhead, hclosed, hip,
    Prod.ext rfl hrunning, hdown, hend⟩

end FoolLang
