import FoolLang.Proofs.Memories
/-!
# Heaps — the heap of a running program only grows

Whatever a machine does while it runs a compiled program, it is in a configuration that suits the line to be run next
(`Host.Outcome.tracks`).  So values are stored at the end of the heap only, the heap ends further and further up, and
the stack, which a step must leave above it, overwrites none of its cells (`heap_append_only`).
-/
namespace FoolLang

open Assembly

namespace Machine

/-! ## What one step keeps -/

/-- An action that only takes values from the stack. -/
def Reads {α : Type} (x : Action α) : Prop :=
  ∀ m, (ending (x m)).hp = m.hp ∧ (ending (x m)).memory = m.memory ∧ m.sp ≤ (ending (x m)).sp

/-- An action that leaves the heap alone: it writes to the top of the stack at most. -/
def KeepsHeap {α : Type} (x : Action α) : Prop :=
  ∀ m, (ending (x m)).hp = m.hp ∧ ∀ a, a + 1 < m.sp → (ending (x m)).memory.get? a = m.memory.get? a

theorem Reads.bind {α β : Type} {x : Action α} {f : α → Action β} (hx : Reads x) (hf : ∀ a, KeepsHeap (f a)) :
    KeepsHeap (x >>= f) := by
  intro m
  obtain ⟨hhp, hmem, hsp⟩ := hx m
  change (ending (EStateM.bind x f m)).hp = _ ∧ ∀ a, _ → (ending (EStateM.bind x f m)).memory.get? a = _
  unfold EStateM.bind
  cases hr : x m with
  | error e m' =>
    rw [hr] at hhp hmem
    exact ⟨hhp, fun a _ => congrArg (·.get? a) hmem⟩
  | ok v m' =>
    rw [hr] at hhp hmem hsp
    obtain ⟨hhp', hcells⟩ := hf v m'
    refine ⟨hhp'.trans hhp, fun a ha => ?_⟩
    rw [← congrArg (·.get? a) hmem]
    exact hcells a (Nat.lt_of_lt_of_le ha hsp)

theorem reads_pop (ip : Nat) : Reads (pop ip) := by
  intro m
  rw [pop, get_bind_eq]
  cases m.top with
  | none => exact ⟨rfl, rfl, Nat.le_refl _⟩
  | some v => exact ⟨rfl, rfl, Nat.le_succ _⟩

theorem reads_cell (ip : Nat) (address : Int32) : Reads (cell ip address) := by
  intro m
  rw [cell, get_bind_eq]
  split <;> exact ⟨rfl, rfl, Nat.le_refl _⟩

theorem keepsHeap_push (ip : Nat) (v : Int32) : KeepsHeap (push ip v) := by
  intro m
  rw [push, get_bind_eq]
  split
  · exact ⟨rfl, fun _ _ => rfl⟩
  · exact ⟨rfl, fun a ha => m.memory.get?_set_ne v (show a ≠ m.sp - 1 by omega)⟩

theorem keepsHeap_modify {g : Machine → Machine} (hhp : ∀ m, (g m).hp = m.hp) (hmem : ∀ m, (g m).memory = m.memory) :
    KeepsHeap (modify g : Action PUnit) := fun m => ⟨hhp m, fun a _ => congrArg (·.get? a) (hmem m)⟩

theorem keepsHeap_arith (ip : Nat) (f : Int32 → Int32 → Int32) : KeepsHeap (arith ip f) :=
  (reads_pop ip).bind fun _ => (reads_pop ip).bind fun _ => keepsHeap_push ip _

theorem keepsHeap_compareGoto (ip target : Nat) (holds : Int32 → Int32 → Bool) :
    KeepsHeap (compareGoto ip target holds) := by
  refine (reads_pop ip).bind fun right => (reads_pop ip).bind fun left m => ?_
  split <;> exact ⟨rfl, fun _ _ => rfl⟩

theorem keepsHeap_operate (length ip : Nat) {o : Op} (hsw : o ≠ .sw) (hshp : o ≠ .shp) :
    KeepsHeap (operate length ip o) := by
  have hset : ∀ g : Int32 → Machine → Machine, (∀ v m, (g v m).hp = m.hp) → (∀ v m, (g v m).memory = m.memory) →
      KeepsHeap (do let v ← pop ip; modify (g v)) := fun g hhp hmem =>
    (reads_pop ip).bind fun v => keepsHeap_modify (hhp v) (hmem v)
  cases o with
  | pop => exact (reads_pop ip).bind fun _ _ => ⟨rfl, fun _ _ => rfl⟩
  | add | sub | mult => exact keepsHeap_arith ip _
  | div =>
    refine (reads_pop ip).bind fun right => (reads_pop ip).bind fun left m => ?_
    by_cases h : right = 0
    · simp only [h, if_true]
      exact ⟨rfl, fun _ _ => rfl⟩
    · simp only [h, if_false]
      exact keepsHeap_push ip _ m
  | sw => exact absurd rfl hsw
  | lw => exact (reads_pop ip).bind fun address => (reads_cell ip address).bind fun a m => keepsHeap_push ip _ m
  | js =>
    refine (reads_pop ip).bind fun address m => ?_
    split <;> exact ⟨rfl, fun _ _ => rfl⟩
  | lra | ltm | lfp | lhp => exact fun m => keepsHeap_push ip _ m
  | sra | stm | sfp => exact hset _ (fun _ _ => rfl) fun _ _ => rfl
  | shp => exact absurd rfl hshp
  | cfp | print => exact keepsHeap_modify (fun _ => rfl) fun _ => rfl
  | halt => exact fun _ => ⟨rfl, fun _ _ => rfl⟩

theorem keepsHeap_execute (length ip : Nat) {i : Instr} (hsw : i ≠ .op .sw) (hshp : i ≠ .op .shp) :
    KeepsHeap (execute length ip i) := by
  cases i with
  | push v => exact keepsHeap_push ip v
  | branch b target =>
    cases b with
    | always => exact keepsHeap_modify (fun _ => rfl) fun _ => rfl
    | ifEqual | ifLessEq => exact keepsHeap_compareGoto ip target _
  | op o => exact keepsHeap_operate length ip (fun h => hsw (congrArg _ h)) fun h => hshp (congrArg _ h)

/-- **A step that neither stores nor moves the end of the heap leaves the heap alone.** -/
theorem step_keepsHeap {code : Array Instr} {m : Machine} (hsw : code[m.ip]? ≠ some (.op .sw))
    (hshp : code[m.ip]? ≠ some (.op .shp)) :
    (step code m).1.hp = m.hp ∧ ∀ a, a + 1 < m.sp → (step code m).1.memory.get? a = m.memory.get? a := by
  unfold step
  split
  · exact ⟨rfl, fun _ _ => rfl⟩
  · rename_i i hi
    dsimp only
    split
    · exact ⟨rfl, fun _ _ => rfl⟩
    · have h := keepsHeap_execute code.size m.ip (fun he => hsw (he ▸ hi)) (fun he => hshp (he ▸ hi))
        { m with ip := m.ip + 1, steps := m.steps + 1 }
      split
      · rename_i done hd
        rw [hd] at h
        unfold checkRoom
        split <;> exact h
      · rename_i f stuck hd
        rw [hd] at h
        exact h

theorem of_bind_ok {α β : Type} {x : Action α} {f : α → Action β} {m m' : Machine} {b : β}
    (h : (x >>= f) m = .ok b m') : ∃ a m₁, x m = .ok a m₁ ∧ f a m₁ = .ok b m' := by
  change EStateM.bind x f m = _ at h
  unfold EStateM.bind at h
  split at h
  · exact ⟨_, _, ‹_›, h⟩
  · cases h

/-- A jump so far from the start that the address after it is no 32-bit integer fails. -/
theorem execute_js_far (length : Nat) {ip : Nat} (h : Text.maxInt32 ≤ ip) (m done : Machine) :
    execute length ip (.op .js) m ≠ .ok () done := by
  intro hd
  obtain ⟨address, m₁, -, hd⟩ := of_bind_ok hd
  rw [if_neg (fun hin => Nat.not_lt.2 h hin.2.2)] at hd
  cases hd

theorem step_halted {code : Array Instr} {m m' : Machine} (h : step code m = (m', .halted)) :
    code[m.ip]? = some (.op .halt) ∧ m' = { m with ip := m.ip + 1, steps := m.steps + 1 } := by
  unfold step at h
  split at h
  · cases h
  · rename_i i hi
    dsimp only at h
    split at h
    · cases h
      exact ⟨by rw [hi, ‹i = _›], rfl⟩
    · split at h
      · unfold checkRoom at h
        split at h <;> cases h
      · cases h

theorem room_of_step {code : Array Instr} {m m' : Machine} (h : step code m = (m', .running)) :
    m'.hp.toInt < m'.sp := by
  unfold step at h
  split at h
  · cases h
  · dsimp only at h
    split at h
    · cases h
    · split at h
      · unfold checkRoom at h
        split at h
        · rename_i hroom
          cases h
          exact hroom
        · cases h
      · cases h

variable {code : Array Instr} {n k : Nat} {start m m' : Machine} {st : Status}

theorem running_of_run_succ (h : run code (n + 1) start = (m', .running)) :
    ∃ m, run code n start = (m, .running) ∧ step code m = (m', .running) := by
  generalize hn : run code n start = result
  obtain ⟨m, st⟩ := result
  by_cases hst : st = .running
  · subst hst
    exact ⟨m, rfl, (run_succ_of_running hn).symm.trans h⟩
  · rw [run_of_le hn hst (Nat.le_succ n)] at h
    exact absurd (Prod.mk.inj h).2 hst

theorem running_of_le (h : run code n start = (m, .running)) (hk : k ≤ n) :
    ∃ m', run code k start = (m', .running) := by
  induction n generalizing m with
  | zero =>
    obtain rfl := Nat.le_zero.1 hk
    exact ⟨m, h⟩
  | succ n ih =>
    rcases Nat.lt_or_eq_of_le hk with hlt | rfl
    · obtain ⟨m₁, h₁, -⟩ := running_of_run_succ h
      exact ih h₁ (Nat.le_of_lt_succ hlt)
    · exact ⟨m, h⟩

/-- A machine that has stopped did so in one step. -/
theorem last_step (h : run code n start = (m, st)) (hst : st ≠ .running) :
    ∃ k < n, ∃ m₀, run code k start = (m₀, .running) ∧ step code m₀ = (m, st) := by
  induction n with
  | zero =>
    cases h
    exact absurd rfl hst
  | succ n ih =>
    generalize hn : run code n start = result at ih
    obtain ⟨m₀, st₀⟩ := result
    by_cases hst₀ : st₀ = .running
    · subst hst₀
      exact ⟨n, Nat.lt_succ_self n, m₀, hn, (run_succ_of_running hn).symm.trans h⟩
    · rw [run_of_le hn hst₀ (Nat.le_succ n)] at h
      obtain ⟨k, hk, hrest⟩ := ih h
      exact ⟨k, Nat.lt_succ_of_lt hk, hrest⟩

/-- **There is room between heap and stack after a step that did not fault.** -/
theorem room_of_run (h : run code n start = (m, .running)) (hn : 0 < n) : m.hp.toInt < m.sp := by
  obtain ⟨n, rfl⟩ := Nat.exists_eq_succ_of_ne_zero (Nat.pos_iff_ne_zero.1 hn)
  obtain ⟨m₀, -, hs⟩ := running_of_run_succ h
  exact room_of_step hs

end Machine

/-! ## Where a run has come to -/

namespace Host

variable {H : Host} {M n : Nat} {c : Config} {m : Machine}

/-- After so many instructions a machine that goes on is in a configuration that suits the next line. -/
def Tracks (H : Host) (M n : Nat) : Prop :=
  ∀ m, Machine.run (H.instrsFor M) n (.fresh M) = (m, .running) → ∃ c, m.Shows M c ∧ H.Orderly c

/-- A machine before a jump that is too far from the start does not get on. -/
theorem Strands.stops (h : H.Strands c) (hm : m.Shows M c) : (Machine.step (H.instrsFor M) m).2 ≠ .running := by
  obtain ⟨rest, hr, hip, hfar, -⟩ := h
  have hi : (H.instrsFor M)[c.ip]? = some (.op .js) := hip ▸ instrs_place hr rfl
  rw [step_eq hm hi (by simp)]
  split
  · rename_i done hd
    exact absurd hd (Machine.execute_js_far _ hfar _ done)
  · simp

/-- **What leads to a configuration suits the lines on the way.** -/
theorem Reached.tracks (h : H.Reached c) (hM : M ≤ Text.maxInt32) : (∀ n, H.Tracks M n) ∨
    (∀ n < c.steps, H.Tracks M n) ∧
      ∀ m, Machine.run (H.instrsFor M) c.steps (.fresh M) = (m, .running) → m.Shows M c := by
  induction h with
  | start =>
    refine .inr ⟨fun n hn => absurd hn (Nat.not_lt_zero n), fun m hr => ?_⟩
    cases hr
    exact shows_start M
  | @step c c' _ hs ih =>
    refine ih.imp_right fun ⟨htracks, hshows⟩ => ⟨fun n hn m hr => ?_, fun m' hr => ?_⟩
    · rw [hs.steps] at hn
      rcases Nat.lt_or_eq_of_le (Nat.le_of_lt_succ hn) with hlt | rfl
      · exact htracks n hlt m hr
      · exact ⟨c, hshows m hr, hs.orderly⟩
    · rw [hs.steps] at hr
      obtain ⟨m, hrun, hstep⟩ := Machine.running_of_run_succ hr
      by_cases hfits : c'.Fits M
      · obtain ⟨m₁, hst, hm₁⟩ := hs.fits M m hM (hshows m hrun) hfits
        rw [hstep] at hst
        exact (Prod.mk.inj hst).1 ▸ hm₁
      · obtain ⟨m₁, ip, hst, -⟩ := hs.starves M m hM (hshows m hrun) hfits
        rw [hstep] at hst
        cases hst
  | @stranded c c' hc hs ih =>
    refine ih.elim .inl fun ⟨htracks, hshows⟩ => .inl fun n m hr => ?_
    rcases Nat.lt_trichotomy n c.steps with hlt | rfl | hgt
    · exact htracks n hlt m hr
    · exact ⟨c, hshows m hr, hs.orderly⟩
    · obtain ⟨m', hr'⟩ := Machine.running_of_le hr hgt
      obtain ⟨m₀, hrun, hstep⟩ := Machine.running_of_run_succ hr'
      exact absurd (congrArg Prod.snd hstep) (hs.stops (hshows m₀ hrun))

/-- Where all machines stop that get to a configuration, nothing is left to be tracked. -/
theorem Reached.tracks_of_stops (h : H.Reached c) (hM : M ≤ Text.maxInt32) (hend : ∀ m, m.Shows M c →
    H.Orderly c ∧ (Machine.step (H.instrsFor M) m).2 ≠ .running) (n : Nat) : H.Tracks M n := by
  rcases h.tracks hM with hall | ⟨htracks, hshows⟩
  · exact hall n
  intro m hr
  rcases Nat.lt_trichotomy n c.steps with hlt | rfl | hgt
  · exact htracks n hlt m hr
  · exact ⟨c, hshows m hr, (hend m (hshows m hr)).1⟩
  · obtain ⟨m', hr'⟩ := Machine.running_of_le hr hgt
    obtain ⟨m₀, hrun, hstep⟩ := Machine.running_of_run_succ hr'
    exact absurd (congrArg Prod.snd hstep) (hend m₀ (hshows m₀ hrun)).2

theorem Faulted.tracks {f : Fault} {out : List Int32} (h : H.Faulted f out) (hM : M ≤ Text.maxInt32) (n : Nat) :
    H.Tracks M n := by
  obtain ⟨c, hreached, horderly, -, hfault⟩ := h
  refine hreached.tracks_of_stops hM (fun m hm => ⟨horderly, ?_⟩) n
  obtain ⟨stuck, hstep, -⟩ := hfault M m hM hm
  rw [hstep]
  simp

/-- **Code that does what an evaluation does runs every line with what suits it.** -/
theorem Outcome.tracks {p : Program} {ty : Ty} {r : EStateM.Result Stop World Value}
    (h : H.Outcome p.plan r fun v w => v.Has p.classTable.hierarchy w ty ∧ p.Leaves H v w) (n : Nat) :
    H.Tracks H.memory n := by
  cases r with
  | ok v w =>
    obtain ⟨-, cells, hs, fp, ra, tm, after, -, -, hat⟩ := h
    obtain ⟨steps, hreached⟩ := hat.2
    refine hreached.tracks_of_stops H.memory_le (fun m hm => ⟨⟨_, after, hat.1, rfl, rfl, by simp [Suits]⟩, ?_⟩) n
    rw [step_halt hm (instrs_place hat.1 rfl)]
    simp
  | error e w =>
    cases e with
    | exhausted =>
      obtain ⟨c, hreached, hlen, -⟩ := h
      refine hreached.tracks_of_stops H.memory_le (fun m hm => ?_) n
      have hsp := hm.sp
      omega
    | divisionByZero =>
      obtain ⟨ip, hfault⟩ := h
      exact hfault.tracks H.memory_le n
    | nullReceiver =>
      obtain ⟨ip, -, hfault⟩ := h
      exact hfault.tracks H.memory_le n
    | stuck => exact h.elim

/-! ## What a run keeps -/

/-- The line that suits a configuration is the one whose instruction is run. -/
theorem Orderly.line {i : Instr} (h : H.Orderly c) (hi : (H.instrsFor M)[c.ip]? = some i) :
    ∃ line rest, line :: rest <:+ H.code ∧ H.place (line :: rest) = c.ip ∧ H.Suits c.stack c.heap c.hp c.fp line rest ∧
      line.isInstr = true ∧ (line.fill M).instr? H.code.address = some i := by
  obtain ⟨line, rest, hline, hinstr, hip, hsuits⟩ := h
  obtain ⟨i', hline'⟩ : ∃ i, (line.fill M).instr? H.code.address = some i := by
    rw [← Option.isSome_iff_exists, Line.isSome_instr?, Code.isInstr_fill, hinstr]
  rw [← hip, instrs_place hline hline'] at hi
  exact ⟨line, rest, hline, hip, hsuits, hinstr, hline'.trans hi⟩

theorem Orderly.op {o : Op} (h : H.Orderly c) (hi : (H.instrsFor M)[c.ip]? = some (.op o)) :
    ∃ rest, .op o :: rest <:+ H.code ∧ H.place (.op o :: rest) = c.ip ∧
      H.Suits c.stack c.heap c.hp c.fp (.op o) rest := by
  obtain ⟨line, rest, hline, hip, hsuits, -, hi⟩ := h.line hi
  obtain rfl : line = .op o := by
    cases line with
    | push n =>
      rw [Line.fill] at hi
      split at hi <;> cases hi
    | op o' =>
      cases hi
      rfl
    | define | pushLabel | branch => cases hi
  exact ⟨rest, hline, hip, hsuits⟩

end Host

namespace Machine

variable {H : Host} {M : Nat} {c : Config} {m : Machine}

theorem cell_eq {address : Int32} (h0 : 0 ≤ address) (h : address.toInt.toNat < m.memory.size) (ip : Nat) :
    cell ip address m = .ok address.toInt.toNat m := by
  rw [cell, get_bind_eq, if_pos ⟨h0, h⟩]
  rfl

theorem operate_sw {address v : Int32} (htop : m.top = some address) (hnext : m.memory.get? (m.sp + 1) = some v)
    (h0 : 0 ≤ address) (hin : address.toInt.toNat < m.memory.size) (length ip : Nat) :
    operate length ip .sw m =
      .ok () { m with sp := m.sp + 2, memory := m.memory.set address.toInt.toNat v } := by
  have hnext' : top { m with sp := m.sp + 1 } = some v := hnext
  show (pop _ >>= fun address => pop _ >>= fun v => cell _ address >>= fun a => _) m = _
  rw [bind_ok (pop_eq htop _), bind_ok (pop_eq hnext' _)]
  exact bind_ok (@cell_eq { m with sp := m.sp + 2 } _ h0 hin ip)

theorem Shows.hp_le (h : m.Shows M c) : c.hp ≤ m.sp := Nat.le_trans h.end_le h.room

/-- **A value is stored right after the heap.** -/
theorem Shows.store {v : Cell} {below : List Cell} (h : m.Shows M c) (hM : M ≤ Text.maxInt32)
    (hi : (H.instrsFor M)[c.ip]? = some (.op .sw)) (hs : c.stack = .ofNat c.hp :: v :: below) :
    m.top = some m.hp ∧ step (H.instrsFor M) m =
      ({ m with ip := m.ip + 1, sp := m.sp + 2, steps := m.steps + 1,
                memory := m.memory.set m.hp.toInt.toNat (v.word M) }, .running) := by
  have hsp := h.sp
  rw [hs, List.length_cons, List.length_cons] at hsp
  have hle := h.hp_le
  have hint := h.toInt_hp hM
  have htop : m.top = some m.hp := (h.top_eq hs).trans (congrArg some h.hp.symm)
  have hnext : m.memory.get? (m.sp + 1) = some (v.word M) := h.stack 1 v (by rw [hs]; rfl)
  have h0 : 0 ≤ m.hp := by
    rw [Int32.le_iff_toInt_le, hint]
    exact Int.natCast_nonneg _
  have hin : m.hp.toInt.toNat < m.memory.size := by
    rw [hint, h.cells]
    omega
  refine ⟨htop, ?_⟩
  have hexec := @operate_sw { m with ip := m.ip + 1, steps := m.steps + 1 } _ _ htop hnext h0 hin (H.instrsFor M).size
    c.ip
  rw [Host.step_eq h hi (by simp), execute, hexec]
  exact if_pos (by rw [hint]; show (c.hp : Int) < ((m.sp + 2 : Nat) : Int); omega)

/-- **The heap grows by one cell.** -/
theorem Shows.grow {below : List Cell} (h : m.Shows M c) (hM : M ≤ Text.maxInt32)
    (hi : (H.instrsFor M)[c.ip]? = some (.op .shp)) (hs : c.stack = .ofNat (c.hp + 1) :: below) :
    (step (H.instrsFor M) m).1.memory = m.memory ∧ (step (H.instrsFor M) m).1.hp.toInt = m.hp.toInt + 1 := by
  have hsp := h.sp
  rw [hs, List.length_cons] at hsp
  have hle := h.hp_le
  have hint : (Int32.ofNat (c.hp + 1)).toInt = m.hp.toInt + 1 := by
    rw [h.toInt_hp hM, Int32.toInt_ofNat_of_le (by omega)]
    rfl
  rw [Host.step_shp h hi hs]
  dsimp only [checkRoom]
  split <;> exact ⟨rfl, hint⟩

/-- A machine whose heap has grown: the heap ends no earlier, and holds what it held. -/
def HeapGrows (m m' : Machine) : Prop :=
  m.hp.toInt ≤ m'.hp.toInt ∧ ∀ a : Nat, (a : Int) < m.hp.toInt → m'.memory.get? a = m.memory.get? a

theorem HeapGrows.refl (m : Machine) : m.HeapGrows m := ⟨Int.le_refl _, fun _ _ => rfl⟩

theorem HeapGrows.trans {m₁ m₂ : Machine} (h : m.HeapGrows m₁) (h' : m₁.HeapGrows m₂) : m.HeapGrows m₂ :=
  ⟨Int.le_trans h.1 h'.1, fun a ha => (h'.2 a (Int.lt_of_lt_of_le ha h.1)).trans (h.2 a ha)⟩

/-- **A step from an orderly configuration keeps the heap**, whether it faults or not. -/
theorem Shows.heapGrows (h : m.Shows M c) (hM : M ≤ Text.maxInt32) (ho : H.Orderly c)
    (hroom : m.hp.toInt < m.sp ∨ m.hp.toInt = 0) : m.HeapGrows (step (H.instrsFor M) m).1 := by
  by_cases hsw : (H.instrsFor M)[c.ip]? = some (.op .sw)
  · obtain ⟨rest, -, -, v, below, hs⟩ := ho.op hsw
    rw [(h.store hM hsw hs).2]
    refine ⟨Int.le_refl _, fun a ha => m.memory.get?_set_ne _ ?_⟩
    omega
  by_cases hshp : (H.instrsFor M)[c.ip]? = some (.op .shp)
  · obtain ⟨rest, -, -, below, hs⟩ := ho.op hshp
    obtain ⟨hmem, hhp⟩ := h.grow hM hshp hs
    exact ⟨by omega, fun a _ => by rw [hmem]⟩
  · rw [← h.ip] at hsw hshp
    obtain ⟨hhp, hcells⟩ := step_keepsHeap hsw hshp
    refine ⟨Int.le_of_eq (congrArg Int32.toInt hhp.symm), fun a ha => hcells a ?_⟩
    omega

/-- **The heap grows in a run that is tracked.** -/
theorem heapGrows_run {H : Host} {M : Nat} (hM : M ≤ Text.maxInt32) (htracks : ∀ n, H.Tracks M n) (n k : Nat) :
    (run (H.instrsFor M) n (.fresh M)).1.HeapGrows (run (H.instrsFor M) (n + k) (.fresh M)).1 := by
  induction k with
  | zero => exact .refl _
  | succ k ih =>
    refine ih.trans ?_
    generalize hrun : run (H.instrsFor M) (n + k) (.fresh M) = result
    obtain ⟨m, st⟩ := result
    by_cases hst : st = .running
    · subst hst
      obtain ⟨c, hc, ho⟩ := htracks _ m hrun
      rw [← Nat.add_assoc, run_succ_of_running hrun]
      refine hc.heapGrows hM ho ?_
      rcases Nat.eq_zero_or_pos (n + k) with h0 | hpos
      · rw [h0] at hrun
        cases hrun
        exact .inr rfl
      · exact .inl (room_of_run hrun hpos)
    · rw [← Nat.add_assoc, run_of_le hrun hst (Nat.le_succ _)]
      exact .refl _

end Machine

/-! ## Compiled programs -/

section

variable {source : List Char} {limits : Limits} {n : Nat} {c : Compilation} {m : Machine} {st : Machine.Status}

theorem of_mapError_ok {ε ε' α : Type} {f : ε → ε'} {x : Except ε α} {a : α} (h : x.mapError f = .ok a) :
    x = .ok a := by
  cases x with
  | error e => cases h
  | ok b => exact congrArg _ (Except.ok.inj h)

/-- A run of a source is a run of the code it compiles to, and so it is with any other number of instructions. -/
theorem of_run (h : run n source limits = .ok (c, m, st)) :
    compile source limits.memory = .ok c ∧ limits.memory ≤ Text.maxInt32 ∧ c.code.Addressable ∧
      ∀ k, run k source limits = .ok (c, Machine.run c.code.link.toArray k (.fresh limits.memory)) := by
  obtain ⟨c', hc, h⟩ := exists_of_bind_ok h
  obtain ⟨r, hx, h⟩ := exists_of_bind_ok h
  obtain ⟨instrs, ha, hx⟩ := exists_of_bind_ok (of_mapError_ok hx)
  obtain ⟨start, hs, -⟩ := exists_of_bind_ok hx
  obtain rfl : c' = c := (Prod.mk.inj (Except.ok.inj h)).1
  have hc := of_mapError_ok hc
  have hm : limits.memory ≤ Text.maxInt32 := by
    unfold Machine.start at hs
    split at hs
    · assumption
    · cases hs
  obtain ⟨rfl, -, haddr⟩ := (wellFormed_compile hm hc).of_assemble (of_mapError_ok ha)
  refine ⟨hc, hm, haddr, fun k => ?_⟩
  have hexec : execute k c'.code.text limits =
      .ok (Machine.run c'.code.link.toArray k (.fresh limits.memory)) := by
    rw [execute, ha, Machine.start, if_pos hm]
    rfl
  rw [run, hc]
  change ((execute k c'.code.text limits).mapError _ >>= _) = _
  rw [hexec]
  rfl

/-- **A compiled program runs every line with what suits it.** -/
theorem compiled_tracks (hb : Text.byteLength source ≤ Text.maxInt32) (h : run n source limits = .ok (c, m, st)) :
    ∃ (p : Program) (H : Host), c.program = p.resolve ∧ H.memory = limits.memory ∧
      H.code = p.resolve.code Code.mark ∧ H.levels = p.resolve.levelOf ∧ H.fullCode = c.code ∧
      ∀ n, H.Tracks H.memory n := by
  obtain ⟨hc, hm, haddr, -⟩ := of_run h
  obtain ⟨p, hp, hprogram, hfill, haddr, houtcome⟩ := outcome_compiled hb hm hc haddr
  refine ⟨p, p.host limits.memory hm haddr, hprogram, rfl, rfl, rfl, ?_,
    (houtcome limits.memory hm limits.memory (Nat.le_refl _)).tracks⟩
  obtain ⟨p', ty, hp', -, -, rfl⟩ := compile_ok hc
  obtain rfl : p' = p := Except.ok.inj (hp'.symm.trans hp)
  exact hfill _ hm

/-- **The heap is append-only and never meets the stack.**  In a run of a compiled program the heap never shrinks, and
its cells keep their values to the end of the run.  A value is stored nowhere but at the first cell past the heap.  And
no step that does not fault leaves the stack reaching down to the heap. -/
theorem heap_append_only (hb : Text.byteLength source ≤ Text.maxInt32) (h : run n source limits = .ok (c, m, st)) :
    (∀ k, ∃ m' st', run (n + k) source limits = .ok (c, m', st') ∧ m.hp.toInt ≤ m'.hp.toInt ∧
      ∀ a : Nat, (a : Int) < m.hp.toInt → m'.memory.get? a = m.memory.get? a) ∧
    (st = .running → c.code.link[m.ip]? = some (.op .sw) → ∃ v, m.top = some m.hp ∧
      Machine.step c.code.link.toArray m =
        ({ m with ip := m.ip + 1, sp := m.sp + 2, steps := m.steps + 1,
                  memory := m.memory.set m.hp.toInt.toNat v }, .running)) ∧
    (0 < n → (∀ f, st ≠ .faulted f) → m.hp.toInt < m.sp) := by
  obtain ⟨-, hm, -, hruns⟩ := of_run h
  obtain ⟨p, H, -, hmemory, -, -, hcode, htracks⟩ := compiled_tracks hb h
  rw [hmemory] at htracks
  have hinstrs : H.instrsFor limits.memory = c.code.link.toArray := by
    rw [← hmemory, ← hcode]
    rfl
  have hrun : Machine.run (H.instrsFor limits.memory) n (.fresh limits.memory) = (m, st) := by
    rw [hinstrs]
    exact congrArg Prod.snd (Except.ok.inj ((hruns n).symm.trans h))
  refine ⟨fun k => ⟨_, _, hruns (n + k), ?_⟩, fun hst hsw => ?_, fun hn hst => ?_⟩
  · have hgrows := Machine.heapGrows_run hm htracks n k
    rw [hrun, hinstrs] at hgrows
    exact hgrows
  · subst hst
    obtain ⟨c', hc, ho⟩ := htracks n m hrun
    rw [← List.getElem?_toArray, ← hinstrs, hc.ip] at hsw
    obtain ⟨rest, -, -, v, below, hs⟩ := ho.op hsw
    obtain ⟨htop, hstep⟩ := hc.store hm hsw hs
    rw [hinstrs] at hstep
    exact ⟨_, htop, hstep⟩
  · by_cases hrunning : st = .running
    · subst hrunning
      exact Machine.room_of_run hrun hn
    · obtain ⟨k, -, m₀, hrun₀, hstep⟩ := Machine.last_step hrun hrunning
      obtain rfl : st = .halted := by cases st <;> simp_all
      obtain ⟨hhalt, rfl⟩ := Machine.step_halted hstep
      -- something is on the stack, so this is not the first step
      obtain ⟨c', hc, ho⟩ := htracks k m₀ hrun₀
      obtain ⟨rest, -, -, hs⟩ := ho.op (hc.ip ▸ hhalt)
      have hk : 0 < k := by
        refine Nat.pos_of_ne_zero fun h0 => hs ?_
        subst h0
        cases hrun₀
        have hsp : limits.memory + c'.stack.length = limits.memory := hc.sp
        exact List.length_eq_zero_iff.1 (by omega)
      have hroom : m₀.hp.toInt < m₀.sp := Machine.room_of_run hrun₀ hk
      exact hroom

/-- The address of an object is about to be completed with its dispatch pointer: two cells lie on the heap by then, and
they stay. -/
theorem boxSource_heap_append_only : ∃ c m v, run 21 boxSource ⟨100, 70⟩ = .ok (c, m, .running) ∧ m.hp = 2 ∧
    m.top = some 2 ∧ m.hp.toInt < m.sp ∧ Machine.step c.code.link.toArray m =
      ({ m with ip := m.ip + 1, sp := m.sp + 2, steps := m.steps + 1, memory := m.memory.set 2 v }, .running) ∧
    ∀ k, ∃ m' st', run (21 + k) boxSource ⟨100, 70⟩ = .ok (c, m', st') ∧ (2 : Int32).toInt ≤ m'.hp.toInt ∧
      m'.memory.get? 0 = m.memory.get? 0 ∧ m'.memory.get? 1 = m.memory.get? 1 := by
  have hruns : (run 21 boxSource ⟨100, 70⟩).toOption.any (fun r => decide (r.2.2 = .running) &&
      (decide (r.2.1.hp = 2) && decide (r.1.code.link[r.2.1.ip]? = some (.op .sw)))) = true := by decide +kernel
  obtain ⟨⟨c, m, st⟩, hr, hm⟩ := exists_of_any hruns
  simp only [Bool.and_eq_true, decide_eq_true_eq] at hm
  obtain ⟨rfl, hhp, hsw⟩ := hm
  obtain ⟨hgrows, hstores, hroom⟩ := heap_append_only (by decide +kernel) hr
  obtain ⟨v, htop, hstep⟩ := hstores rfl hsw
  have haddress : m.hp.toInt.toNat = 2 := by rw [hhp]; rfl
  rw [haddress] at hstep
  refine ⟨c, m, v, hr, hhp, hhp ▸ htop, hroom (by decide) (by simp), hstep, fun k => ?_⟩
  obtain ⟨m', st', hr', hle, hcells⟩ := hgrows k
  rw [hhp] at hle hcells
  exact ⟨m', st', hr', hle, hcells 0 (by decide), hcells 1 (by decide)⟩

end

end FoolLang
