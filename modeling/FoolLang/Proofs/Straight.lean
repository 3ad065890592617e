import FoolLang.Proofs.Heaps
import FoolLang.Proofs.Passing
/-!
# Straight — machines before straight code

What a machine has done after so many lines of straight code, from whatever state it starts in: it gets there unless it
runs out of memory on the way (`Machine.Attains`).  There is one lemma for each line (`Before.put`, `Before.store`,
`Before.bump`), and from these come the lemmas on the pieces that dispatch tables are built and read with.
-/
namespace FoolLang
namespace Machine

variable {code rest : Code} {line : Line} {m m' m'' : Machine} {v w : Int32} {n h a b : Nat} {P Q : Machine → Prop}

/-- A machine that goes on with `P`, or that ran out of memory. -/
inductive GoesOn (P : Machine → Prop) : Machine × Status → Prop
  | on {m : Machine} : P m → GoesOn P (m, .running)
  | starved {m : Machine} {ip : Nat} : GoesOn P (m, .faulted (.outOfMemory ip))

/-- After `n` instructions a machine goes on with `P`, unless it has run out of memory. -/
def Attains (code : Code) (n : Nat) (P : Machine → Prop) (m : Machine) : Prop := GoesOn P (run code.instrs n m)

theorem GoesOn.mono {r : Machine × Status} (h : GoesOn P r) (hPQ : ∀ m, P m → Q m) : GoesOn Q r := by
  cases h with
  | on h => exact .on (hPQ _ h)
  | starved => exact .starved

theorem Attains.here (h : P m) : Attains code 0 P m := .on h

theorem Attains.mono (h : Attains code n P m) (hPQ : ∀ m, P m → Q m) : Attains code n Q m := GoesOn.mono h hPQ

theorem Attains.bind {k : Nat} (h : Attains code n P m) (hk : ∀ m', P m' → Attains code k Q m') :
    Attains code (n + k) Q m := by
  unfold Attains at h ⊢
  rw [run_add]
  cases hr : run code.instrs n m with
  | mk next st =>
    rw [hr] at h
    cases h with
    | on h => exact hk next h
    | starved => exact .starved

theorem Attains.of_step (h : GoesOn P (step code.instrs m)) : Attains code 1 P m := by
  unfold Attains
  rw [run]
  cases hs : step code.instrs m with
  | mk next st =>
    rw [hs] at h
    cases h with
    | on h => exact .on h
    | starved => exact .starved

/-- A machine that is still running has what it attains. -/
theorem Attains.of_running {next : Machine} (h : Attains code n P m)
    (hr : run code.instrs n m = (next, .running)) : P next := by
  unfold Attains at h
  rw [hr] at h
  cases h with
  | on h => exact h

/-- The heap ends at address `h`, before the stack. -/
structure HeapTo (h : Nat) (m : Machine) : Prop where
  hp : m.hp = .ofNat h
  le : h ≤ m.sp
  inside : m.sp ≤ m.memory.size
  small : m.memory.size ≤ Text.maxInt32

theorem HeapTo.fresh {memory : Nat} (hm : memory ≤ Text.maxInt32) : (Machine.fresh memory).HeapTo 0 :=
  ⟨rfl, Nat.zero_le _, Nat.le_refl _, hm⟩

theorem HeapTo.toInt_hp (hm : m.HeapTo h) : m.hp.toInt = h := by
  have hle := hm.le
  have hinside := hm.inside
  have hsmall := hm.small
  rw [hm.hp, Int32.toInt_ofNat_of_le (by omega)]

/-- The cells of the heap and of the stack are the same as before. -/
def Keeps (h : Nat) (m m' : Machine) : Prop := ∀ a, a < h ∨ m.sp ≤ a → m'.memory.get? a = m.memory.get? a

/-! ## Lines -/

theorem checkRoom_goesOn (ip : Nat) (h : m.hp.toInt < m.sp → P m) : GoesOn P (checkRoom ip m) := by
  unfold checkRoom
  split
  · rename_i hlt
    exact .on (h hlt)
  · exact .starved

theorem Before.step_eq {i : Instr} (hb : m.Before code (line :: rest)) (hi : line.instr? code.address = some i)
    (hne : i ≠ .op .halt) : step code.instrs m =
      match execute code.instrs.size m.ip i { m with ip := m.ip + 1, steps := m.steps + 1 } with
      | .ok _ done => checkRoom m.ip done
      | .error f stuck => (stuck, .faulted f) := by
  rw [step, hb.instr hi]
  exact if_neg hne

/-- What a line does that takes `n` values and leaves `v`. -/
structure Puts (n : Nat) (v : Int32) (m m' : Machine) : Prop where
  sp : m'.sp + 1 = m.sp + n
  fp : m'.fp = m.fp
  hp : m'.hp = m.hp
  size : m'.memory.size = m.memory.size
  room : m'.hp.toInt < m'.sp
  top : m'.top = some v
  cells : ∀ a, a ≠ m'.sp → m'.memory.get? a = m.memory.get? a

theorem Puts.heapTo (hp : Puts n v m m') (hm : m.HeapTo h) (hn : m.sp + n ≤ m.memory.size + 1) : m'.HeapTo h := by
  have hsp := hp.sp
  have hroom := hp.room
  rw [hp.hp, hm.toInt_hp] at hroom
  exact ⟨hp.hp.trans hm.hp, by omega, by rw [hp.size]; omega, by rw [hp.size]; exact hm.small⟩

theorem Puts.lt (hp : Puts n v m m') (hm : m.HeapTo h) : h < m'.sp := by
  have hroom := hp.room
  rw [hp.hp, hm.toInt_hp] at hroom
  omega

/-- **A line that leaves a value** either does so or runs out of memory. -/
theorem Before.put {i : Instr} (hb : m.Before code (line :: rest)) (hi : line.instr? code.address = some i)
    (hne : i ≠ .op .halt) (hn : m.sp + n ≤ m.memory.size)
    (hx : execute code.instrs.size m.ip i { m with ip := m.ip + 1, steps := m.steps + 1 } =
      push m.ip v { m with ip := m.ip + 1, steps := m.steps + 1, sp := m.sp + n }) :
    Attains code 1 (fun m' => m'.Before code rest ∧ Puts n v m m') m := by
  have hl : line.isInstr = true := by rw [← line.isSome_instr? code.address, hi]; rfl
  refine .of_step ?_
  rw [hb.step_eq hi hne, hx]
  by_cases h0 : m.sp + n = 0
  · simp only [push, get_bind_eq, h0, if_true]
    exact .starved
  · simp only [push, get_bind_eq, h0, if_false]
    refine checkRoom_goesOn m.ip fun hroom => ⟨hb.next hl rfl, ?_, rfl, rfl, rfl, hroom, ?_, fun a ha => ?_⟩
    · show m.sp + n - 1 + 1 = m.sp + n
      omega
    · show (m.memory.set (m.sp + n - 1) v).get? (m.sp + n - 1) = some v
      rw [Memory.get?_set, if_pos (by omega), if_pos rfl]
    · exact m.memory.get?_set_ne v ha

variable {l : Label} {k : Int}

theorem Before.push (hb : m.Before code (.push k :: rest)) (hm : m.HeapTo h) :
    Attains code 1 (fun m' => m'.Before code rest ∧ Puts 0 (Int32.ofInt k) m m') m :=
  hb.put rfl (by simp) hm.inside rfl

theorem Before.pushLabel (hb : m.Before code (.pushLabel l :: rest)) (hm : m.HeapTo h) :
    Attains code 1 (fun m' => m'.Before code rest ∧ Puts 0 (.ofNat (code.address l)) m m') m :=
  hb.put rfl (by simp) hm.inside rfl

theorem Before.lhp (hb : m.Before code (.op .lhp :: rest)) (hm : m.HeapTo h) :
    Attains code 1 (fun m' => m'.Before code rest ∧ Puts 0 (.ofNat h) m m') m :=
  hb.put rfl (by simp) hm.inside (by rw [← hm.hp]; rfl)

theorem Before.lfp (hb : m.Before code (.op .lfp :: rest)) (hm : m.HeapTo h) :
    Attains code 1 (fun m' => m'.Before code rest ∧ Puts 0 m.fp m m') m :=
  hb.put rfl (by simp) hm.inside rfl

theorem Before.lw (hb : m.Before code (.op .lw :: rest)) (hm : m.HeapTo h) (htop : m.top = some (.ofNat a))
    (hv : m.memory.get? a = some v) : Attains code 1 (fun m' => m'.Before code rest ∧ Puts 1 v m m') m := by
  have hsp := Memory.lt_of_get? htop
  have ha : a < m.memory.size := Memory.lt_of_get? hv
  have hsmall := hm.small
  have hint : (Int32.ofNat a).toInt = a := Int32.toInt_ofNat_of_le (by omega)
  have h0 : 0 ≤ Int32.ofNat a := by
    rw [Int32.le_iff_toInt_le, hint]
    exact Int.natCast_nonneg _
  have hin : (Int32.ofNat a).toInt.toNat < m.memory.size := by rw [hint]; exact ha
  refine hb.put rfl (by simp) hsp ?_
  have htop' : top { m with ip := m.ip + 1, steps := m.steps + 1 } = some (.ofNat a) := htop
  show (pop _ >>= fun address => cell _ address >>= fun a => get >>= fun m => _) _ = _
  rw [bind_ok (pop_eq htop' _), bind_ok (@cell_eq { m with ip := m.ip + 1, steps := m.steps + 1, sp := m.sp + 1 } _ h0
    hin m.ip), get_bind_eq, hint]
  show Machine.push m.ip ((m.memory.get? a).getD 0) _ = _
  rw [hv]
  rfl

theorem Before.add (hb : m.Before code (.op .add :: rest)) (hw : m.top = some w)
    (hv : m.memory.get? (m.sp + 1) = some v) :
    Attains code 1 (fun m' => m'.Before code rest ∧ Puts 2 (v + w) m m') m := by
  have hin : m.sp + 1 < m.memory.size := Memory.lt_of_get? hv
  refine hb.put rfl (by simp) hin ?_
  have hw' : top { m with ip := m.ip + 1, steps := m.steps + 1 } = some w := hw
  have hv' : top { m with ip := m.ip + 1, steps := m.steps + 1, sp := m.sp + 1 } = some v := hv
  show (pop _ >>= fun right => pop _ >>= fun left => _) _ = _
  rw [bind_ok (pop_eq hw' _), bind_ok (pop_eq hv' _)]

/-- **A value is stored at the end of the heap.** -/
theorem Before.store (hb : m.Before code (.op .sw :: rest)) (hm : m.HeapTo h) (htop : m.top = some (.ofNat h))
    (hv : m.memory.get? (m.sp + 1) = some v) :
    Attains code 1 (fun m' => m'.Before code rest ∧ m'.HeapTo h ∧ m'.sp = m.sp + 2 ∧ m'.fp = m.fp ∧
      m'.memory.get? h = some v ∧ ∀ a, a ≠ h → m'.memory.get? a = m.memory.get? a) m := by
  have hin : m.sp + 1 < m.memory.size := Memory.lt_of_get? hv
  have hle := hm.le
  have hint : (Int32.ofNat h).toInt = h := by rw [← hm.hp, hm.toInt_hp]
  have h0 : 0 ≤ Int32.ofNat h := by
    rw [Int32.le_iff_toInt_le, hint]
    exact Int.natCast_nonneg _
  have hcell : (Int32.ofNat h).toInt.toNat < m.memory.size := by
    rw [hint]
    omega
  have hexec := @operate_sw { m with ip := m.ip + 1, steps := m.steps + 1 } _ _ htop hv h0 hcell code.instrs.size m.ip
  refine .of_step ?_
  rw [hb.step_eq rfl (by simp), execute, hexec, hint]
  refine checkRoom_goesOn m.ip fun _ => ⟨hb.next rfl rfl, ⟨hm.hp, ?_, ?_, hm.small⟩, rfl, rfl, ?_, fun a ha => ?_⟩
  · show h ≤ m.sp + 2
    omega
  · show m.sp + 2 ≤ m.memory.size
    omega
  · show (m.memory.set h v).get? h = some v
    rw [Memory.get?_set, if_pos (by omega), if_pos rfl]
  · exact m.memory.get?_set_ne v ha

theorem Before.setHeap (hb : m.Before code (.op .shp :: rest)) (hm : m.HeapTo h)
    (htop : m.top = some (.ofNat (h + 1))) (hlt : h < m.sp) :
    Attains code 1 (fun m' => m'.Before code rest ∧ m'.HeapTo (h + 1) ∧ m'.sp = m.sp + 1 ∧ m'.fp = m.fp ∧
      m'.memory = m.memory) m := by
  have hin := Memory.lt_of_get? htop
  have hexec := @operate_shp { m with ip := m.ip + 1, steps := m.steps + 1 } _ htop code.instrs.size m.ip
  refine .of_step ?_
  rw [hb.step_eq rfl (by simp), execute, hexec]
  exact checkRoom_goesOn m.ip fun _ =>
    ⟨hb.next rfl rfl, ⟨rfl, by show h + 1 ≤ m.sp + 1; omega, hin, hm.small⟩, rfl, rfl, rfl⟩

/-! ## Pieces -/

/-- The heap has grown by these values, and the rest of it and the stack are as they were. -/
structure Stored (h : Nat) (vs : List Int32) (m m' : Machine) : Prop where
  heap : m'.HeapTo (h + vs.length)
  sp : m'.sp = m.sp
  fp : m'.fp = m.fp
  stored : ∀ j v, vs[j]? = some v → m'.memory.get? (h + j) = some v
  kept : Keeps h m m'

theorem Stored.nil (hm : m.HeapTo h) : Stored h [] m m := ⟨hm, rfl, rfl, nofun, fun _ _ => rfl⟩

theorem Stored.append {vs ws : List Int32} (hv : Stored h vs m m') (hw : Stored (h + vs.length) ws m' m'') :
    Stored h (vs ++ ws) m m'' where
  heap := by
    rw [List.length_append, ← Nat.add_assoc]
    exact hw.heap
  sp := hw.sp.trans hv.sp
  fp := hw.fp.trans hv.fp
  stored j v hj := by
    by_cases hlt : j < vs.length
    · rw [List.getElem?_append_left hlt] at hj
      rw [hw.kept _ (.inl (by omega)), hv.stored j v hj]
    · rw [List.getElem?_append_right (by omega)] at hj
      have := hw.stored _ v hj
      rwa [show h + vs.length + (j - vs.length) = h + j by omega] at this
  kept a ha := (hw.kept a (ha.imp (by omega) (by rw [hv.sp]; exact id))).trans (hv.kept a ha)

theorem Before.bumpHeap (hb : m.Before code (Line.bumpHeap ++ rest)) (hm : m.HeapTo h) :
    Attains code 4 (fun m' => m'.Before code rest ∧ m'.HeapTo (h + 1) ∧ m'.sp = m.sp ∧ m'.fp = m.fp ∧
      ∀ a, a ≤ h ∨ m.sp ≤ a → m'.memory.get? a = m.memory.get? a) m := by
  have hinside := hm.inside
  refine (hb.lhp hm).bind (n := 1) (k := 3) fun m₁ ⟨hb₁, hp₁⟩ => ?_
  have hm₁ := hp₁.heapTo hm (by omega)
  have hlt₁ := hp₁.lt hm
  have hsp₁ := hp₁.sp
  refine (hb₁.push hm₁).bind (n := 1) (k := 2) fun m₂ ⟨hb₂, hp₂⟩ => ?_
  have hinside₁ := hm₁.inside
  have hm₂ := hp₂.heapTo hm₁ (by omega)
  have hlt₂ := hp₂.lt hm₁
  have hsp₂ := hp₂.sp
  have hnext : m₂.memory.get? (m₂.sp + 1) = some (.ofNat h) := by
    rw [hp₂.cells _ (by omega), hsp₂, Nat.add_zero]
    exact hp₁.top
  refine (hb₂.add hp₂.top hnext).bind (n := 1) (k := 1) fun m₃ ⟨hb₃, hp₃⟩ => ?_
  have hsp₃ := hp₃.sp
  have hlt₃ := hp₃.lt hm₂
  have hin₂ := Memory.lt_of_get? hnext
  have hm₃ := hp₃.heapTo hm₂ (by omega)
  have htop : m₃.top = some (.ofNat (h + 1)) := by
    rw [hp₃.top, Int32.ofNat_add]
    rfl
  refine (hb₃.setHeap hm₃ htop hlt₃).mono fun m' ⟨hb', hm', hsp', hfp', hmem⟩ => ?_
  refine ⟨hb', hm', by omega, by rw [hfp', hp₃.fp, hp₂.fp, hp₁.fp], fun a ha => ?_⟩
  rw [hmem, hp₃.cells a (by omega), hp₂.cells a (by omega), hp₁.cells a (by omega)]

/-- **The address of a label is put at the end of the heap.** -/
theorem Before.storeLabel (hb : m.Before code (.pushLabel l :: Line.allocate ++ rest)) (hm : m.HeapTo h) :
    Attains code 7 (fun m' => m'.Before code rest ∧ Stored h [.ofNat (code.address l)] m m') m := by
  have hinside := hm.inside
  refine (hb.pushLabel hm).bind (n := 1) (k := 6) fun m₁ ⟨hb₁, hp₁⟩ => ?_
  have hm₁ := hp₁.heapTo hm (by omega)
  have hsp₁ := hp₁.sp
  have hinside₁ := hm₁.inside
  refine (hb₁.lhp hm₁).bind (n := 1) (k := 5) fun m₂ ⟨hb₂, hp₂⟩ => ?_
  have hm₂ := hp₂.heapTo hm₁ (by omega)
  have hlt₂ := hp₂.lt hm₁
  have hsp₂ := hp₂.sp
  have hnext : m₂.memory.get? (m₂.sp + 1) = some (.ofNat (code.address l)) := by
    rw [hp₂.cells _ (by omega), hsp₂, Nat.add_zero]
    exact hp₁.top
  refine (hb₂.store hm₂ hp₂.top hnext).bind (n := 1) (k := 4) fun m₃ ⟨hb₃, hm₃, hsp₃, hfp₃, hv₃, hcells₃⟩ => ?_
  refine (hb₃.bumpHeap hm₃).mono fun m' ⟨hb', hm', hsp', hfp', hcells'⟩ => ?_
  refine ⟨hb', hm', by omega, by rw [hfp', hfp₃, hp₂.fp, hp₁.fp], fun j v hj => ?_, fun a ha => ?_⟩
  · obtain ⟨rfl, rfl⟩ : j = 0 ∧ v = .ofNat (code.address l) := by
      cases j with
      | zero => exact ⟨rfl, (Option.some.inj hj).symm⟩
      | succ j => cases hj
    rw [Nat.add_zero, hcells' h (.inl (Nat.le_refl h)), hv₃]
  · rw [hcells' a (by omega), hcells₃ a (by omega), hp₂.cells a (by omega), hp₁.cells a (by omega)]

theorem Before.storeLabels : ∀ (table : List Label) {m : Machine} {h : Nat},
    m.Before code ((table.flatMap fun l => .pushLabel l :: Line.allocate) ++ rest) → m.HeapTo h →
    Attains code (7 * table.length) (fun m' => m'.Before code rest ∧
      Stored h (table.map fun l => .ofNat (code.address l)) m m') m
  | [], _, _, hb, hm => .here ⟨hb, .nil hm⟩
  | l :: table, m, h, hb, hm => by
    rw [List.flatMap_cons, List.append_assoc] at hb
    rw [List.length_cons, Nat.mul_succ, Nat.add_comm]
    refine (hb.storeLabel hm).bind fun m₁ ⟨hb₁, hs₁⟩ => ?_
    exact (storeLabels table hb₁ hs₁.heap).mono fun m' ⟨hb', hs'⟩ => ⟨hb', hs₁.append hs'⟩

/-- What the code of a dispatch table leaves: the addresses of its labels from the end of the heap on, and where that
was on top of the stack. -/
structure Tabled (code : Code) (table : List Label) (h : Nat) (m m' : Machine) : Prop where
  heap : m'.HeapTo (h + table.length)
  sp : m'.sp + 1 = m.sp
  top : m'.top = some (.ofNat h)
  slots : ∀ j l, table[j]? = some l → m'.memory.get? (h + j) = some (.ofNat (code.address l))
  kept : Keeps h m m'

theorem size_tableCode (table : List Label) : (Class.tableCode table).size = 1 + 7 * table.length := by
  rw [Class.tableCode, Code.size_op, Nat.add_comm]
  congr 1
  induction table with
  | nil => rfl
  | cons l table ih =>
    rw [List.flatMap_cons, Code.size_append, ih, List.length_cons, Nat.mul_succ, Nat.add_comm]
    rfl

theorem Before.tableCode (table : List Label) (hb : m.Before code (Class.tableCode table ++ rest)) (hm : m.HeapTo h) :
    Attains code (Class.tableCode table).size (fun m' => m'.Before code rest ∧ Tabled code table h m m') m := by
  have hinside := hm.inside
  rw [size_tableCode]
  refine (hb.lhp hm).bind fun m₁ ⟨hb₁, hp₁⟩ => ?_
  have hsp₁ := hp₁.sp
  refine (hb₁.storeLabels table (hp₁.heapTo hm (by omega))).mono fun m' ⟨hb', hs'⟩ => ⟨hb', ?_⟩
  have hheap := hs'.heap
  rw [List.length_map] at hheap
  have hlt₁ := hp₁.lt hm
  refine ⟨hheap, by rw [hs'.sp]; exact hsp₁, ?_, fun j l hj => ?_, fun a ha => ?_⟩
  · unfold top
    rw [hs'.sp, hs'.kept _ (.inr (Nat.le_refl _))]
    exact hp₁.top
  · exact hs'.stored j _ (by rw [List.getElem?_map, hj]; rfl)
  · rw [hs'.kept a (by omega), hp₁.cells a (by omega)]

/-- **What lies at an offset from an address is loaded**, if it lies in the heap. -/
theorem Before.loadAt {j : Nat} (hb : m.Before code (Line.loadAt j ++ rest)) (hm : m.HeapTo h)
    (htop : m.top = some (.ofNat a)) (hv : m.memory.get? (a + j) = some v) (hj : a + j < h) :
    Attains code 3 (fun m' => m'.Before code rest ∧ m'.sp = m.sp ∧ m'.top = some v) m := by
  have hin := Memory.lt_of_get? htop
  have hinside := hm.inside
  refine (hb.push hm).bind (n := 1) (k := 2) fun m₁ ⟨hb₁, hp₁⟩ => ?_
  have hm₁ := hp₁.heapTo hm (by omega)
  have hlt₁ := hp₁.lt hm
  have hsp₁ := hp₁.sp
  have hnext : m₁.memory.get? (m₁.sp + 1) = some (.ofNat a) := by
    rw [hp₁.cells _ (by omega), hsp₁, Nat.add_zero]
    exact htop
  refine (hb₁.add hp₁.top hnext).bind (n := 1) (k := 1) fun m₂ ⟨hb₂, hp₂⟩ => ?_
  have hin₁ := Memory.lt_of_get? hnext
  have hm₂ := hp₂.heapTo hm₁ (by omega)
  have hlt₂ := hp₂.lt hm₁
  have hsp₂ := hp₂.sp
  have htop₂ : m₂.top = some (.ofNat (a + j)) := by rw [hp₂.top, Int32.ofNat_add, Int32.ofInt_eq_ofNat]
  have hv₂ : m₂.memory.get? (a + j) = some v := by
    rw [hp₂.cells _ (by omega), hp₁.cells _ (by omega)]
    exact hv
  refine (hb₂.lw hm₂ htop₂ hv₂).mono fun m' ⟨hb', hp'⟩ => ⟨hb', ?_, hp'.top⟩
  have hsp' := hp'.sp
  omega

/-! ## Links -/

/-- From the frame pointer on, so many cells in a row hold the address of the next one. -/
structure Linked (m : Machine) (h n : Nat) (link : Nat → Nat) : Prop where
  fp : m.fp = .ofNat (link 0)
  next : ∀ i < n, m.memory.get? (link i) = some (.ofNat (link (i + 1)))
  apart : ∀ i < n, link i < h ∨ m.sp ≤ link i

/-- **Following links**: after the frame pointer, each load goes one link on. -/
theorem Before.hops {link : Nat → Nat} (hb : m.Before code (.op .lfp :: List.replicate n (.op .lw) ++ rest))
    (hm : m.HeapTo h) (hl : m.Linked h n link) : ∀ k ≤ n, Attains code (k + 1) (fun m' =>
      m'.Before code (List.replicate (n - k) (.op .lw) ++ rest) ∧ m'.HeapTo h ∧ m'.sp + 1 = m.sp ∧
        m'.top = some (.ofNat (link k)) ∧ ∀ a, a ≠ m'.sp → m'.memory.get? a = m.memory.get? a) m := by
  intro k
  induction k with
  | zero =>
    intro _
    refine (hb.lfp hm).mono fun m' ⟨hb', hp'⟩ => ⟨hb', hp'.heapTo hm ?_, hp'.sp, ?_, hp'.cells⟩
    · have := hm.inside
      omega
    · rw [hp'.top, hl.fp]
  | succ k ih =>
    intro hk
    refine (ih (by omega)).bind fun m₁ ⟨hb₁, hm₁, hsp₁, htop₁, hcells₁⟩ => ?_
    rw [show n - k = n - (k + 1) + 1 by omega, List.replicate_succ] at hb₁
    have happart := hl.apart k (by omega)
    have hle := hm₁.le
    have hv : m₁.memory.get? (link k) = some (.ofNat (link (k + 1))) := by
      rw [hcells₁ _ (by omega), hl.next k (by omega)]
    refine (hb₁.lw hm₁ htop₁ hv).mono fun m' ⟨hb', hp'⟩ => ?_
    have hin := Memory.lt_of_get? htop₁
    have hsp' := hp'.sp
    refine ⟨hb', hp'.heapTo hm₁ (by omega), by omega, hp'.top, fun a ha => ?_⟩
    rw [hp'.cells a ha, hcells₁ a (by omega)]

end Machine
end FoolLang
