import FoolLang.Proofs.Blocks
import FoolLang.Proofs.Shapes
import FoolLang.Proofs.Templates
import FoolLang.Execute
/-!
# Configs — what machines running code get to

A configuration is what can be known of a machine without its memory: the stack and the heap as lists.  It is one for
memories of all sizes, for what a cell holds is told for each size (`Cell`).  A host is code in which the size of the
memory is left open.  One step leads all machines that have room for it from one configuration to the next, and the
others run out of memory (`Step`); so machines with different memories go the same way until the smaller one has no
room left (`Reached.lockstep`).  On the way each line is run with what suits it (`Suits`): so the frame of a method is
loaded only where links lead from it to the object (`Tethered`).
-/
namespace FoolLang

/-- What a cell holds in a memory of each size: an address on the stack is counted from the end of the memory. -/
@[ext]
structure Cell where
  word : Nat → Int32

namespace Cell

def const (v : Int32) : Cell := ⟨fun _ => v⟩

def ofInt (n : Int) : Cell := const (Int32.ofInt n)

def ofNat (n : Nat) : Cell := const (Int32.ofNat n)

/-- The address so many cells before the end of the memory. -/
def fromEnd (n : Int) : Cell := ⟨fun M => Int32.ofInt (M - n)⟩

instance : Add Cell := ⟨fun a b => ⟨fun M => a.word M + b.word M⟩⟩

theorem add_assoc (a b c : Cell) : a + b + c = a + (b + c) :=
  Cell.ext (funext fun M => Int32.add_assoc (a.word M) (b.word M) (c.word M))

theorem ofInt_add (a b : Int) : ofInt (a + b) = ofInt a + ofInt b := Cell.ext (funext fun _ => Int32.ofInt_add a b)

theorem ofNat_add (a b : Nat) : ofNat (a + b) = ofNat a + ofNat b := Cell.ext (funext fun _ => Int32.ofNat_add a b)

theorem ofInt_eq_ofNat (n : Nat) : ofInt n = ofNat n := congrArg const Int32.ofInt_eq_ofNat

theorem fromEnd_add (n k : Int) : fromEnd n + ofInt k = fromEnd (n - k) := by
  refine Cell.ext (funext fun M => ?_)
  show Int32.ofInt (M - n) + Int32.ofInt k = Int32.ofInt (M - (n - k))
  rw [← Int32.ofInt_add]
  congr 1
  omega

end Cell

structure Config where
  ip : Nat
  /-- The top is the first. -/
  stack : List Cell
  /-- The cells from address 0 on; the last one may lie past the end of the heap, not yet part of it. -/
  heap : List Cell
  hp : Nat
  fp : Cell
  ra : Cell
  tm : Cell
  /-- Newest first. -/
  printed : List Int32
  steps : Nat

namespace Config

def start : Config := ⟨0, [], [], 0, .fromEnd 0, .const 0, .const 0, [], 0⟩

/-- There is room for a configuration in so many cells. -/
def Fits (M : Nat) (c : Config) : Prop := c.hp + c.stack.length < M

end Config

/-- A machine with so many cells is in a configuration. -/
structure Machine.Shows (M : Nat) (m : Machine) (c : Config) : Prop where
  cells : m.memory.size = M
  ip : m.ip = c.ip
  sp : m.sp + c.stack.length = M
  stack : ∀ i v, c.stack[i]? = some v → m.memory.get? (m.sp + i) = some (v.word M)
  heap : ∀ i v, c.heap[i]? = some v → m.memory.get? i = some (v.word M)
  hp : m.hp = Int32.ofNat c.hp
  end_le : c.hp ≤ c.heap.length
  le_end : c.heap.length ≤ c.hp + 1
  room : c.heap.length ≤ m.sp
  fp : m.fp = c.fp.word M
  ra : m.ra = c.ra.word M
  tm : m.tm = c.tm.word M
  printed : m.printed = c.printed.map some
  steps : m.steps = c.steps

theorem Int32.toInt_ofNat_of_le {n : Nat} (h : n ≤ Text.maxInt32) : (Int32.ofNat n).toInt = n :=
  Int32.toInt_ofNat_of_lt (by unfold Text.maxInt32 at h; omega)

theorem get_bind_eq {ε σ β : Type} (f : σ → EStateM ε σ β) (s : σ) : (get >>= f) s = f s s := rfl

theorem Memory.get?_set_ne (mem : Memory) {a b : Nat} (v : Int32) (hne : b ≠ a) :
    (mem.set a v).get? b = mem.get? b := by
  rw [Memory.get?_set, if_neg (Ne.symm hne)]
  split
  · rfl
  · rename_i hb
    rw [Memory.get?, if_neg hb]

theorem Memory.get?_set_of_ne {mem : Memory} {a b : Nat} (v : Int32) {w : Int32} (hw : mem.get? b = some w)
    (hne : b ≠ a) : (mem.set a v).get? b = some w := (mem.get?_set_ne v hne).trans hw

theorem Memory.lt_of_get? {mem : Memory} {a : Nat} {v : Int32} (hv : mem.get? a = some v) : a < mem.size := by
  have hsome := mem.get?_isSome a
  rw [hv] at hsome
  exact of_decide_eq_true hsome.symm

namespace Machine

variable {M : Nat} {m : Machine}

/-- What the rest of an instruction comes to: the configuration if there is room for it, and otherwise no memory left
for it. -/
def Lands (M : Nat) (r : EStateM.Result Fault Machine Unit) (c : Config) : Prop :=
  match r with
  | .ok _ done => done.printed = c.printed.map some ∧ done.hp.toInt = c.hp ∧ done.sp + c.stack.length = M ∧
      (c.Fits M → done.Shows M c)
  | .error f stuck => (∃ ip, f = .outOfMemory ip) ∧ stuck.printed = c.printed.map some ∧ ¬c.Fits M

theorem Shows.begun {c : Config} (hs : m.Shows M c) :
    Machine.Shows M { m with ip := m.ip + 1, steps := m.steps + 1 } { c with ip := c.ip + 1, steps := c.steps + 1 } :=
  { cells := hs.cells, ip := congrArg Nat.succ hs.ip, sp := hs.sp, stack := hs.stack, heap := hs.heap, hp := hs.hp
    end_le := hs.end_le, le_end := hs.le_end, room := hs.room, fp := hs.fp, ra := hs.ra, tm := hs.tm
    printed := hs.printed, steps := congrArg Nat.succ hs.steps }

theorem Shows.toInt_hp {c : Config} (h : m.Shows M c) (hM : M ≤ Text.maxInt32) : m.hp.toInt = c.hp := by
  have hsp := h.sp
  have hend := h.end_le
  have hroom := h.room
  rw [h.hp, Int32.toInt_ofNat_of_le (by omega)]

theorem Shows.top_eq {c : Config} {v : Cell} {below : List Cell} (h : m.Shows M c) (hs : c.stack = v :: below) :
    m.top = some (v.word M) := h.stack 0 v (by rw [hs]; rfl)

theorem Shows.lands {c : Config} (h : m.Shows M c) (hM : M ≤ Text.maxInt32) : Lands M (.ok () m) c :=
  ⟨h.printed, h.toInt_hp hM, h.sp, fun _ => h⟩

section

variable {pc hp n : Nat} {s hs : List Cell} {out : List Int32} {fp ra tm v : Cell}

theorem Shows.pop (h : m.Shows M ⟨pc, v :: s, hs, hp, fp, ra, tm, out, n⟩) (ip : Nat) :
    ∃ m', Machine.pop ip m = .ok (v.word M) m' ∧ m'.Shows M ⟨pc, s, hs, hp, fp, ra, tm, out, n⟩ := by
  have htop : m.top = some (v.word M) := h.stack 0 v rfl
  refine ⟨{ m with sp := m.sp + 1 }, ?_, ?_⟩
  · rw [Machine.pop, get_bind_eq, htop]
    rfl
  · have hsp : m.sp + (s.length + 1) = M := h.sp
    exact {
      cells := h.cells, ip := h.ip, hp := h.hp, end_le := h.end_le, le_end := h.le_end, heap := h.heap, fp := h.fp
      ra := h.ra, tm := h.tm, printed := h.printed, steps := h.steps
      sp := by show m.sp + 1 + s.length = M; omega
      stack := fun i w hi => by
        have := h.stack (i + 1) w hi
        rwa [show m.sp + (i + 1) = m.sp + 1 + i by omega] at this
      room := Nat.le_succ_of_le h.room }

theorem Shows.push (h : m.Shows M ⟨pc, s, hs, hp, fp, ra, tm, out, n⟩) (hM : M ≤ Text.maxInt32) (ip : Nat)
    (v : Cell) : Lands M (Machine.push ip (v.word M) m) ⟨pc, v :: s, hs, hp, fp, ra, tm, out, n⟩ := by
  have hsp : m.sp + s.length = M := h.sp
  have hroom : hs.length ≤ m.sp := h.room
  have hend : hp ≤ hs.length := h.end_le
  have hle : hs.length ≤ hp + 1 := h.le_end
  by_cases h0 : m.sp = 0
  · simp only [Machine.push, get_bind_eq, h0, if_true]
    refine ⟨⟨ip, rfl⟩, h.printed, fun hfits => ?_⟩
    have hfits' : hp + (s.length + 1) < M := hfits
    omega
  · simp only [Machine.push, get_bind_eq, h0, if_false]
    refine ⟨h.printed, h.toInt_hp hM, ?_, fun hfits => ?_⟩
    · show m.sp - 1 + (s.length + 1) = M
      omega
    have hfits' : hp + (s.length + 1) < M := hfits
    exact {
      cells := h.cells, ip := h.ip, hp := h.hp, end_le := h.end_le, le_end := h.le_end, fp := h.fp
      ra := h.ra, tm := h.tm, printed := h.printed, steps := h.steps
      sp := by show m.sp - 1 + (s.length + 1) = M; omega
      stack := fun i w hi => by
        cases i with
        | zero =>
          cases hi
          show (m.memory.set (m.sp - 1) (v.word M)).get? (m.sp - 1 + 0) = some (v.word M)
          rw [Nat.add_zero, Memory.get?_set, if_pos (by rw [h.cells]; omega), if_pos rfl]
        | succ i =>
          show (m.memory.set (m.sp - 1) (v.word M)).get? (m.sp - 1 + (i + 1)) = some (w.word M)
          rw [show m.sp - 1 + (i + 1) = m.sp + i by omega]
          exact Memory.get?_set_of_ne (v.word M) (h.stack i w hi) (by omega)
      heap := fun i w hi => by
        have hlen := (List.getElem?_eq_some_iff.1 hi).1
        have hlen' : i < hs.length := hlen
        exact Memory.get?_set_of_ne (v.word M) (h.heap i w hi) (by omega)
      room := by show hs.length ≤ m.sp - 1; omega }

end

theorem Shows.cell {c : Config} (h : m.Shows M c) (hM : M ≤ Text.maxInt32) (ip : Nat) {i : Nat} (hi : i < M) :
    Machine.cell ip (Int32.ofNat i) m = .ok i m := by
  have ht : (Int32.ofNat i).toInt = i := Int32.toInt_ofNat_of_le (by omega)
  have h0 : 0 ≤ Int32.ofNat i := by
    rw [Int32.le_iff_toInt_le, ht]
    exact Int.natCast_nonneg _
  have hin : 0 ≤ Int32.ofNat i ∧ (Int32.ofNat i).toInt.toNat < m.memory.size := ⟨h0, by rw [ht, h.cells]; simpa⟩
  rw [Machine.cell, get_bind_eq, if_pos hin, ht]
  rfl

theorem bind_ok {α β : Type} {x : Action α} {f : α → Action β} {m' : Machine} {v : α} (h : x m = .ok v m') :
    (x >>= f) m = f v m' := by
  simp only [bind, EStateM.bind, h]

theorem pop_eq {v : Int32} (h : m.top = some v) (ip : Nat) : pop ip m = .ok v { m with sp := m.sp + 1 } := by
  rw [pop, get_bind_eq, h]
  rfl

theorem operate_shp {v : Int32} (htop : m.top = some v) (length ip : Nat) :
    operate length ip .shp m = .ok () { m with sp := m.sp + 1, hp := v } := by
  show (pop _ >>= fun v => _) m = _
  rw [bind_ok (pop_eq htop _)]
  rfl

theorem run_succ_of_running {code : Array Instr} {n : Nat} {start : Machine} (h : run code n start = (m, .running)) :
    run code (n + 1) start = step code m := by
  rw [run_add, h]
  show run code 1 m = step code m
  rw [run]
  cases hs : step code m with
  | mk next st => cases st <;> rfl

end Machine

/-- The code that machines run, as a template, and the most cells that are of interest. -/
structure Host where
  memory : Nat
  code : Code
  /-- The levels of the routines of methods, by number: that of a method is at level 2, past the object. -/
  levels : Nat → Option Nat
  memory_le : memory ≤ Text.maxInt32
  addressable : code.Addressable
  definedOnce : ∀ l, code.count (.define l) ≤ 1

namespace Host

variable {H : Host} {M M' : Nat} {c c' : Config}

/-- The instructions of a machine with so many cells. -/
def instrsFor (H : Host) (M : Nat) : Array Instr := (H.code.fill M).link.toArray

/-- The code for the machine with the most cells. -/
def fullCode (H : Host) : Code := H.code.fill H.memory

def instrs (H : Host) : Array Instr := H.fullCode.link.toArray

theorem size_instrsFor (H : Host) (M : Nat) : (H.instrsFor M).size = H.code.size :=
  (Code.length_link _).trans (Code.size_fill _)

/-! ## Places -/

/-- How many instructions come before the last lines. -/
def place (H : Host) (rest : Code) : Nat := H.code.size - rest.size

theorem place_of_suffix {pre rest : Code} (h : pre ++ rest = H.code) : H.place rest = pre.size := by
  rw [place, ← h, Code.size_append]
  omega

theorem place_cons {line : Line} {rest : Code} (h : line :: rest <:+ H.code) (hl : line.isInstr = true) :
    H.place rest = H.place (line :: rest) + 1 := by
  obtain ⟨pre, hp⟩ := h
  have hp' : (pre ++ [line]) ++ rest = H.code := by rw [← hp, List.append_assoc]; rfl
  rw [place_of_suffix hp, place_of_suffix hp', Code.size_append, Code.size_cons, if_pos hl]
  rfl

theorem place_define (l : Label) (rest : Code) : H.place (.define l :: rest) = H.place rest := by
  rw [place, place, Code.size_define]

theorem place_lt {rest : Code} (h : rest <:+ H.code) (h0 : 0 < rest.size) : H.place rest < H.code.size := by
  obtain ⟨pre, hp⟩ := h
  rw [place_of_suffix hp, ← hp, Code.size_append]
  omega

theorem instrs_place {line : Line} {rest : Code} {M : Nat} {i : Instr} (h : line :: rest <:+ H.code)
    (hi : (line.fill M).instr? H.code.address = some i) : (H.instrsFor M)[H.place (line :: rest)]? = some i := by
  obtain ⟨pre, hp⟩ := h
  have hfill : Code.fill M pre ++ line.fill M :: Code.fill M rest = H.code.fill M := by
    rw [← hp, Code.fill_append]
    rfl
  have haddress : (H.code.fill M).address = H.code.address := funext H.code.address_fill
  rw [place_of_suffix hp, instrsFor, List.getElem?_toArray, ← Code.size_fill (M := M)]
  exact Code.getElem?_link hfill (haddress ▸ hi)

/-- The level of the routine that the last lines belong to, if it is one of a method: no other routine starts between
its label and these lines. -/
def levelAt (H : Host) (rest : Code) : Option Nat :=
  ((H.code.take (H.code.length - rest.length)).reverse.findSome? Line.routine?).bind H.levels

theorem levelAt_of_suffix {pre rest : Code} (h : pre ++ rest = H.code) :
    H.levelAt rest = (pre.reverse.findSome? Line.routine?).bind H.levels := by
  rw [levelAt, ← h, List.length_append, Nat.add_sub_cancel, List.take_left]

theorem levelAt_append {pre rest : Code} (h : pre ++ rest <:+ H.code) (hpre : ∀ line ∈ pre, line.routine? = none) :
    H.levelAt (pre ++ rest) = H.levelAt rest := by
  obtain ⟨before, hb⟩ := h
  rw [levelAt_of_suffix hb, levelAt_of_suffix ((List.append_assoc before pre rest).trans hb), List.reverse_append,
    List.findSome?_append, Code.findSome?_routine? hpre, Option.none_or]

/-- Before the first routine lines belong to none. -/
theorem levelAt_of_main {pre rest : Code} (h : pre ++ rest = H.code) (hpre : ∀ line ∈ pre, line.routine? = none) :
    H.levelAt rest = none := by
  rw [← levelAt_append (h ▸ List.suffix_refl _) hpre, h, levelAt_of_suffix (List.nil_append H.code)]
  rfl

theorem levelAt_define {f : Nat} {rest : Code} (h : .define (.routine f) :: rest <:+ H.code) :
    H.levelAt rest = H.levels f := by
  obtain ⟨pre, hp⟩ := h
  have hsplit : (pre ++ [.define (.routine f)]) ++ rest = H.code := by rw [← hp, List.append_assoc]; rfl
  rw [levelAt_of_suffix hsplit, List.reverse_append]
  rfl

/-! ## Links -/

/-- With this stack and heap, the cell at an address holds a value. -/
def Sees (s hs : List Cell) (address v : Cell) : Prop :=
  (∃ i, hs[i]? = some v ∧ address = .ofNat i) ∨
    ∃ above below, s = above ++ v :: below ∧ address = .fromEnd (below.length + 1)

/-- Following a number of links from one address leads to another. -/
def Hops (s hs : List Cell) : Nat → Cell → Cell → Prop
  | 0, a, b => a = b
  | n + 1, a, b => ∃ c, Sees s hs a c ∧ Hops s hs n c b

/-- In a method, as many links lead from the frame to the object on the heap as there are levels in between. -/
def Tethered (H : Host) (s hs : List Cell) (fp : Cell) (rest : Code) : Prop :=
  ∀ n, H.levelAt rest = some n → ∃ a < hs.length, Hops s hs (n - 1) fp (.ofNat a)

/-! ## What lines are run with -/

/-- What a line is run with.  Values are stored at the end of the heap only, and the heap grows by one cell; the frame
is loaded where the links of a method lead to the object; a branch goes to a later line; a jump returns, or it is a call
of a routine that takes as many arguments as the call has; and something is left at the end. -/
def Suits (H : Host) (s hs : List Cell) (hp : Nat) (fp : Cell) : Line → Code → Prop
  | .op .sw, _ => ∃ v below, s = .ofNat hp :: v :: below
  | .op .lfp, rest => hp = hs.length ∧ H.Tethered s hs fp (.op .lfp :: rest)
  | .op .shp, _ => ∃ below, s = .ofNat (hp + 1) :: below
  | .branch _ l, rest => .define l ∈ rest
  | .op .js, rest => .op .lra :: .op .js :: rest <:+ H.code ∨
      ∃ f n below, s = .ofNat (H.code.address (.routine f)) :: below ∧ H.code.CallsWith Code.mark rest n ∧
        H.code.Takes Code.mark f n
  | .op .halt, _ => s ≠ []
  | _, _ => True

/-- A configuration before a line that is run with what suits it. -/
def Orderly (H : Host) (c : Config) : Prop :=
  ∃ line rest, line :: rest <:+ H.code ∧ line.isInstr = true ∧ H.place (line :: rest) = c.ip ∧
    H.Suits c.stack c.heap c.hp c.fp line rest

/-- A configuration before a jump so far from the start that the address after it is no 32-bit integer. -/
def Strands (H : Host) (c : Config) : Prop :=
  ∃ rest, .op .js :: rest <:+ H.code ∧ H.place (.op .js :: rest) = c.ip ∧ Text.maxInt32 ≤ c.ip ∧
    H.Suits c.stack c.heap c.hp c.fp (.op .js) rest

theorem Strands.orderly (h : H.Strands c) : H.Orderly c :=
  let ⟨rest, hr, hip, _, hs⟩ := h
  ⟨_, rest, hr, rfl, hip, hs⟩

theorem Strands.large (h : H.Strands c) : Text.maxInt32 < H.code.size := by
  obtain ⟨rest, hr, hip, hfar, -⟩ := h
  have hlt := place_lt hr (by simp)
  omega

/-! ## Steps -/

/-- One instruction leads from a configuration to another one in every memory with room for the latter; any other
memory it exhausts, with the output of the latter. -/
structure Step (H : Host) (c c' : Config) : Prop where
  orderly : H.Orderly c
  steps : c'.steps = c.steps + 1
  printed : c.printed <:+ c'.printed
  fits : ∀ M m, M ≤ Text.maxInt32 → m.Shows M c → c'.Fits M →
    ∃ m', Machine.step (H.instrsFor M) m = (m', .running) ∧ m'.Shows M c'
  starves : ∀ M m, M ≤ Text.maxInt32 → m.Shows M c → ¬c'.Fits M →
    ∃ m' ip, Machine.step (H.instrsFor M) m = (m', .faulted (.outOfMemory ip)) ∧ m'.printed = c'.printed.map some

/-- Machines get to a configuration, unless they run out of memory or are stranded before. -/
inductive Reached (H : Host) : Config → Prop
  | start : Reached H .start
  | step {c c' : Config} : Reached H c → H.Step c c' → Reached H c'
  | stranded {c c' : Config} : Reached H c → H.Strands c → Reached H c'

theorem shows_start (M : Nat) : (Machine.fresh M).Shows M .start where
  cells := rfl
  ip := rfl
  sp := Nat.add_zero M
  stack _ _ h := nomatch h
  heap _ _ h := nomatch h
  hp := rfl
  end_le := Nat.le_refl 0
  le_end := Nat.zero_le 1
  room := Nat.zero_le M
  fp := by
    show Int32.ofNat M = Int32.ofInt (M - 0)
    rw [Int.sub_zero, Int32.ofInt_eq_ofNat]
  ra := rfl
  tm := rfl
  printed := rfl
  steps := rfl

/-- **Machines with different memories go the same way** until the smaller one runs out of memory; the other one has
printed the same by then. -/
theorem Reached.lockstep (h : H.Reached c) (hsize : H.code.size ≤ Text.maxInt32) (hM : M ≤ M')
    (hM' : M' ≤ Text.maxInt32) :
    (∃ m m', Machine.run (H.instrsFor M) c.steps (.fresh M) = (m, .running) ∧ m.Shows M c ∧
      Machine.run (H.instrsFor M') c.steps (.fresh M') = (m', .running) ∧ m'.Shows M' c) ∨
    ∃ n m ip m' st, n ≤ c.steps ∧ Machine.run (H.instrsFor M) n (.fresh M) = (m, .faulted (.outOfMemory ip)) ∧
      Machine.run (H.instrsFor M') n (.fresh M') = (m', st) ∧ m'.printed = m.printed ∧
        m.printed <:+ c.printed.map some := by
  induction h with
  | start => exact .inl ⟨_, _, rfl, shows_start M, rfl, shows_start M'⟩
  | @step c c' _ hs ih =>
    rcases ih with ⟨m, m', hr, hm, hr', hm'⟩ | ⟨n, m, ip, m', st, hn, hr, hr', he, hp⟩
    · have hr₁ := Machine.run_succ_of_running hr
      have hr₁' := Machine.run_succ_of_running hr'
      rw [← hs.steps] at hr₁ hr₁'
      by_cases hf : c'.Fits M
      · obtain ⟨m₁, hst, hm₁⟩ := hs.fits M m (Nat.le_trans hM hM') hm hf
        obtain ⟨m₁', hst', hm₁'⟩ := hs.fits M' m' hM' hm' (Nat.lt_of_lt_of_le hf hM)
        exact .inl ⟨m₁, m₁', hr₁.trans hst, hm₁, hr₁'.trans hst', hm₁'⟩
      · obtain ⟨m₁, ip, hst, hp⟩ := hs.starves M m (Nat.le_trans hM hM') hm hf
        refine .inr ⟨c'.steps, m₁, ip, ?_⟩
        by_cases hf' : c'.Fits M'
        · obtain ⟨m₁', hst', hm₁'⟩ := hs.fits M' m' hM' hm' hf'
          exact ⟨m₁', _, Nat.le_refl _, hr₁.trans hst, hr₁'.trans hst', hm₁'.printed.trans hp.symm,
            hp ▸ List.suffix_refl _⟩
        · obtain ⟨m₁', ip', hst', hp'⟩ := hs.starves M' m' hM' hm' hf'
          exact ⟨m₁', _, Nat.le_refl _, hr₁.trans hst, hr₁'.trans hst', hp'.trans hp.symm, hp ▸ List.suffix_refl _⟩
    · exact .inr ⟨n, m, ip, m', st, by rw [hs.steps]; omega, hr, hr', he, hp.trans (hs.printed.map some)⟩
  | stranded _ hs => exact absurd hsize (Nat.not_le.2 hs.large)

/-- One machine gets to a configuration, or it runs out of memory with a part of the output. -/
theorem Reached.run (h : H.Reached c) (hsize : H.code.size ≤ Text.maxInt32) (hM : M ≤ Text.maxInt32) :
    (∃ m, Machine.run (H.instrsFor M) c.steps (.fresh M) = (m, .running) ∧ m.Shows M c) ∨
    ∃ n m ip, Machine.run (H.instrsFor M) n (.fresh M) = (m, .faulted (.outOfMemory ip)) ∧
      m.printed <:+ c.printed.map some := by
  rcases h.lockstep hsize (Nat.le_refl M) hM with ⟨m, -, hr, hm, -⟩ | ⟨n, m, ip, -, -, -, hr, -, -, hp⟩
  · exact .inl ⟨m, hr, hm⟩
  · exact .inr ⟨n, m, ip, hr, hp⟩

/-- Every machine runs out of memory, with a part of this output printed: what is reached fits none of them. -/
def Starved (H : Host) (out : List Int32) : Prop :=
  ∃ c, H.Reached c ∧ H.memory < c.stack.length ∧ c.printed <:+ out

theorem step_eq {m : Machine} {i : Instr} (hs : m.Shows M c) (hi : (H.instrsFor M)[c.ip]? = some i)
    (hne : i ≠ .op .halt) : Machine.step (H.instrsFor M) m =
      match Machine.execute (H.instrsFor M).size c.ip i { m with ip := m.ip + 1, steps := m.steps + 1 } with
      | .ok _ done => Machine.checkRoom c.ip done
      | .error f stuck => (stuck, .faulted f) := by
  rw [← hs.ip] at hi ⊢
  rw [Machine.step, hi]
  exact if_neg hne

theorem Step.exec {i : Nat → Instr} (hi : ∀ M, (H.instrsFor M)[c.ip]? = some (i M)) (hne : ∀ M, i M ≠ .op .halt)
    (ho : H.Orderly c) (hsteps : c'.steps = c.steps + 1) (hout : c.printed <:+ c'.printed)
    (hx : ∀ (M : Nat) (m : Machine), M ≤ Text.maxInt32 → m.Shows M { c with ip := c.ip + 1, steps := c.steps + 1 } →
      Machine.Lands M (Machine.execute (H.instrsFor M).size c.ip (i M) m) c') : H.Step c c' := by
  refine ⟨ho, hsteps, hout, fun M m hM hs hf => ?_, fun M m hM hs hf => ?_⟩
  all_goals
    have hstep := step_eq hs (hi M) (hne M)
    have hl := hx M _ hM hs.begun
    revert hstep hl
    cases Machine.execute (H.instrsFor M).size c.ip (i M) { m with ip := m.ip + 1, steps := m.steps + 1 }
  · rename_i done
    rintro hstep ⟨-, hhp, hsp, hd⟩
    have hroom : done.hp.toInt < done.sp := by
      have hf' : c'.hp + c'.stack.length < M := hf
      omega
    simp only [Machine.checkRoom, if_pos hroom] at hstep
    exact ⟨done, hstep, hd hf⟩
  · rintro - ⟨-, -, hnot⟩
    exact absurd hf hnot
  · rename_i done
    rintro hstep ⟨hp, hhp, hsp, -⟩
    have hroom : ¬done.hp.toInt < done.sp := by
      have hf' : ¬c'.hp + c'.stack.length < M := hf
      omega
    simp only [Machine.checkRoom, if_neg hroom] at hstep
    exact ⟨done, c.ip, hstep, hp⟩
  · rename_i stuck
    rintro hstep ⟨⟨ip, rfl⟩, hp, -⟩
    exact ⟨stuck, ip, hstep, hp⟩

theorem step_halt {m : Machine} (hs : m.Shows M c) (hi : (H.instrsFor M)[c.ip]? = some (.op .halt)) :
    Machine.step (H.instrsFor M) m = ({ m with ip := m.ip + 1, steps := m.steps + 1 }, .halted) := by
  rw [← hs.ip] at hi
  rw [Machine.step, hi]
  rfl

/-- The end of the heap is moved by one cell. -/
theorem step_shp {m : Machine} {below : List Cell} (hs : m.Shows M c)
    (hi : (H.instrsFor M)[c.ip]? = some (.op .shp)) (hstack : c.stack = .ofNat (c.hp + 1) :: below) :
    Machine.step (H.instrsFor M) m = Machine.checkRoom c.ip
      { m with ip := m.ip + 1, sp := m.sp + 1, hp := Int32.ofNat (c.hp + 1), steps := m.steps + 1 } := by
  have hexec := @Machine.operate_shp { m with ip := m.ip + 1, steps := m.steps + 1 } _ (hs.top_eq hstack)
    (H.instrsFor M).size c.ip
  rw [step_eq hs hi (by simp), Machine.execute, hexec]
  rfl

/-- Machines get to a configuration where they fault with this printed, unless they run out of memory before. -/
def Faulted (H : Host) (f : Fault) (out : List Int32) : Prop :=
  ∃ c, H.Reached c ∧ H.Orderly c ∧ c.printed = out ∧ ∀ M m, M ≤ Text.maxInt32 → m.Shows M c →
    ∃ stuck, Machine.step (H.instrsFor M) m = (stuck, .faulted f) ∧ stuck.printed = out.map some

theorem Reached.fault {i : Instr} {f : Fault} (h : H.Reached c) (hi : ∀ M, (H.instrsFor M)[c.ip]? = some i)
    (hne : i ≠ .op .halt) (ho : H.Orderly c) (hx : ∀ (M : Nat) (m : Machine), M ≤ Text.maxInt32 →
      m.Shows M { c with ip := c.ip + 1, steps := c.steps + 1 } →
      ∃ stuck, Machine.execute (H.instrsFor M).size c.ip i m = .error f stuck ∧ stuck.printed = c.printed.map some) :
    H.Faulted f c.printed := by
  refine ⟨c, h, ho, rfl, fun M m hM hs => ?_⟩
  obtain ⟨stuck, he, hp⟩ := hx M _ hM hs.begun
  exact ⟨stuck, by rw [step_eq hs (hi M) hne, he], hp⟩

end Host
end FoolLang
