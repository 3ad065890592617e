import FoolLang.Proofs.Heaps
import FoolLang.Proofs.Shapes
/-!
# Activations — runs that stay with a routine

A machine stays in the activation it is in while it runs the lines of one routine and the calls it makes come back
(`Machine.Activation`).  What the instructions on the way do to the stack and the registers is told here for each of
them that completes (`Machine.Moves`).
-/
namespace FoolLang

/-- How many values an instruction takes from the stack. -/
def Instr.takes : Instr → Nat
  | .push _ | .branch .always _ => 0
  | .branch _ _ => 2
  | .op o => o.takes

/-- How many values an instruction puts on the stack. -/
def Instr.leaves : Instr → Nat
  | .push _ => 1
  | .branch _ _ => 0
  | .op o => o.leaves

namespace Machine

variable {code : Array Instr} {m m₁ m' : Machine} {n ip : Nat} {v : Int32}

/-- A machine about to return: to jump to the return address, which it has just put on the stack. -/
def Returning (code : Array Instr) (m : Machine) : Prop :=
  code[m.ip]? = some (.op .js) ∧ ∃ i, m.ip = i + 1 ∧ code[i]? = some (.op .lra)

instance (code : Array Instr) (m : Machine) : Decidable (m.Returning code) :=
  decidable_of_iff (code[m.ip]? = some (.op .js) ∧ 0 < m.ip ∧ code[m.ip - 1]? = some (.op .lra))
    ⟨fun ⟨hjs, h0, hlra⟩ => ⟨hjs, m.ip - 1, by omega, hlra⟩, fun ⟨hjs, i, hip, hlra⟩ =>
      ⟨hjs, by omega, by rwa [show m.ip - 1 = i by omega]⟩⟩

/-- A machine leads to another one in the same activation: no instruction on the way is a jump, but for calls that
come back on the way. -/
inductive Activation (code : Array Instr) : Machine → Machine → Prop
  | refl (m : Machine) : Activation code m m
  | line {m m₁ m' : Machine} : code[m.ip]? ≠ some (.op .js) → step code m = (m₁, .running) → Activation code m₁ m' →
      Activation code m m'
  | call {m m₁ m₂ m₃ m' : Machine} : code[m.ip]? = some (.op .js) → ¬m.Returning code →
      step code m = (m₁, .running) → Activation code m₁ m₂ → m₂.Returning code → step code m₂ = (m₃, .running) →
      Activation code m₃ m' → Activation code m m'

theorem Activation.trans (h : Activation code m m₁) (h' : Activation code m₁ m') : Activation code m m' := by
  induction h with
  | refl => exact h'
  | line hjs hs _ ih => exact .line hjs hs (ih h')
  | call hjs hr hs hin hr' hs' _ _ ih => exact .call hjs hr hs hin hr' hs' (ih h')

/-- What holds of a machine and is kept by steps holds throughout an activation. -/
theorem Activation.keeps {P : Machine → Prop} (hP : ∀ m m', P m → step code m = (m', .running) → P m')
    (h : Activation code m m') : P m → P m' := by
  induction h with
  | refl => exact id
  | line _ hs _ ih => exact fun hm => ih (hP _ _ hm hs)
  | call _ _ hs _ _ hs' _ ihin ih => exact fun hm => ih (hP _ _ (ihin (hP _ _ hm hs)) hs')

/-- So many instructions, with so many calls under way at first: the machine that has come back from all of them. -/
def follow (code : Array Instr) : Nat → Nat → Machine → Option Machine
  | 0, 0, m => some m
  | 0, _ + 1, _ => none
  | n + 1, d, m =>
    match step code m with
    | (next, .running) =>
      if code[m.ip]? ≠ some (.op .js) then follow code n d next
      else if ¬m.Returning code then follow code n (d + 1) next
      else if d = 0 then none else follow code n (d - 1) next
    | _ => none

/-- So many calls come back, one after the other, and in the activation of the last one a machine is reached. -/
def ComesBack (code : Array Instr) : Nat → Machine → Machine → Prop
  | 0, m, m' => Activation code m m'
  | d + 1, m, m' => ∃ m₁ m₂, Activation code m m₁ ∧ m₁.Returning code ∧ step code m₁ = (m₂, .running) ∧
      ComesBack code d m₂ m'

theorem ComesBack.of_activations {d : Nat} (h : ComesBack code d m₁ m')
    (ha : ∀ x, Activation code m₁ x → Activation code m x) : ComesBack code d m m' := by
  cases d with
  | zero => exact ha _ h
  | succ d =>
    obtain ⟨x, y, hx, hrest⟩ := h
    exact ⟨x, y, ha x hx, hrest⟩

/-- **Following a run shows where the calls under way come back.** -/
theorem comesBack_of_follow : ∀ (n : Nat) {d : Nat} {m : Machine}, follow code n d m = some m' →
    ComesBack code d m m'
  | 0, 0, m, h => by
    cases h
    exact .refl _
  | n + 1, d, m, h => by
    rw [follow] at h
    split at h
    case h_2 => cases h
    rename_i next hs
    split at h
    · exact (comesBack_of_follow n h).of_activations fun x hx => .line ‹_› hs hx
    rename_i hjs
    split at h
    · obtain ⟨m₁, m₂, hin, hr, hs', hrest⟩ := comesBack_of_follow n h
      exact hrest.of_activations fun x hx => .call (not_not.1 hjs) ‹_› hs hin hr hs' hx
    · split at h
      · cases h
      · obtain ⟨d, rfl⟩ := Nat.exists_eq_succ_of_ne_zero ‹_›
        exact ⟨m, next, .refl _, not_not.1 ‹_›, hs, comesBack_of_follow n h⟩

/-! ## Instructions that complete -/

theorem pop_bind_ok {α : Type} {f : Int32 → Action α} {a : α} (h : (pop ip >>= f) m = .ok a m') :
    ∃ v, m.top = some v ∧ f v { m with sp := m.sp + 1 } = .ok a m' := by
  obtain ⟨v, _, hv, h⟩ := of_bind_ok h
  rw [pop, get_bind_eq] at hv
  cases htop : m.top with
  | none =>
    rw [htop] at hv
    cases hv
  | some w =>
    rw [htop] at hv
    cases hv
    exact ⟨v, rfl, h⟩

theorem push_ok (h : push ip v m = .ok () m') :
    0 < m.sp ∧ m' = { m with sp := m.sp - 1, memory := m.memory.set (m.sp - 1) v } := by
  rw [push, get_bind_eq] at h
  split at h
  · cases h
  · cases h
    exact ⟨Nat.pos_of_ne_zero ‹_›, rfl⟩

theorem cell_ok {a : Nat} (h : cell ip v m = .ok a m') : a = v.toInt.toNat ∧ m' = m := by
  rw [cell, get_bind_eq] at h
  split at h <;> cases h
  exact ⟨rfl, rfl⟩

theorem modify_ok {g : Machine → Machine} (h : (modify g : Action PUnit) m = .ok () m') : m' = g m := by
  cases h
  rfl

theorem step_ok {i : Instr} (h : step code m = (m', .running)) (hi : code[m.ip]? = some i) :
    i ≠ .op .halt ∧ execute code.size m.ip i { m with ip := m.ip + 1, steps := m.steps + 1 } = .ok () m' := by
  rw [step, hi] at h
  dsimp only at h
  split at h
  · cases h
  · refine ⟨‹_›, ?_⟩
    split at h
    · rename_i done hd
      unfold checkRoom at h
      split at h <;> cases h
      exact hd
    · cases h

/-- What an instruction that completes does: it moves the top of the stack, and writes no further up than where it has
taken values from, but for a value that is stored. -/
structure Moves (i : Instr) (m m' : Machine) : Prop where
  ip : (m'.ip = m.ip + 1 ∧ ∀ t, i ≠ .branch .always t) ∨ ∃ b, i = .branch b m'.ip
  sp : m'.sp + i.leaves = m.sp + i.takes
  fp : i ≠ .op .cfp → i ≠ .op .sfp → m'.fp = m.fp
  ra : i ≠ .op .sra → m'.ra = m.ra
  cells : ∀ a, m.sp + i.takes ≤ a → (i = .op .sw → ∀ v, m.top = some v → v.toInt.toNat ≠ a) →
    m'.memory.get? a = m.memory.get? a

/-- An instruction that ends with a push. -/
theorem Moves.of_push {i : Instr} {m₀ : Machine} (hi : ∀ b t, i ≠ .branch b t) (hleaves : i.leaves = 1)
    (h : push ip v m₀ = .ok () m') (hip : m₀.ip = m.ip + 1) (hsp : m₀.sp = m.sp + i.takes) (hfp : m₀.fp = m.fp)
    (hra : m₀.ra = m.ra) (hmem : m₀.memory = m.memory) : Moves i m m' := by
  obtain ⟨h0, rfl⟩ := push_ok h
  refine ⟨.inl ⟨hip, hi _⟩, ?_, fun _ _ => hfp, fun _ => hra, fun a ha _ => ?_⟩
  · show m₀.sp - 1 + i.leaves = m.sp + i.takes
    omega
  · rw [← hmem]
    exact m₀.memory.get?_set_ne v (by omega)

/-- What an operation does to a machine at its next instruction. -/
theorem operate_moves {o : Op} (h : operate n ip o { m with ip := m.ip + 1, steps := m.steps + 1 } = .ok () m')
    (hjs : o ≠ .js) : Moves (.op o) m m' := by
  cases o with
  | add | sub | mult =>
    obtain ⟨_, -, h⟩ := pop_bind_ok h
    obtain ⟨_, -, h⟩ := pop_bind_ok h
    exact .of_push (by simp) rfl h rfl rfl rfl rfl rfl
  | div =>
    obtain ⟨right, -, h⟩ := pop_bind_ok h
    obtain ⟨left, -, h⟩ := pop_bind_ok h
    by_cases h0 : right = 0
    · simp only [h0, if_true] at h
      cases h
    · simp only [h0, if_false] at h
      exact .of_push (by simp) rfl h rfl rfl rfl rfl rfl
  | lw =>
    obtain ⟨_, -, h⟩ := pop_bind_ok h
    obtain ⟨_, _, h₁, h⟩ := of_bind_ok h
    obtain ⟨-, rfl⟩ := cell_ok h₁
    rw [get_bind_eq] at h
    exact .of_push (by simp) rfl h rfl rfl rfl rfl rfl
  | lra | ltm | lfp | lhp =>
    exact .of_push (by simp) rfl h rfl rfl rfl rfl rfl
  | sw =>
    obtain ⟨address, htop, h⟩ := pop_bind_ok h
    obtain ⟨v, -, h⟩ := pop_bind_ok h
    obtain ⟨_, _, h₁, h⟩ := of_bind_ok h
    obtain ⟨rfl, rfl⟩ := cell_ok h₁
    obtain rfl := modify_ok h
    exact ⟨.inl ⟨rfl, by simp⟩, rfl, fun _ _ => rfl, fun _ => rfl, fun a _ hne =>
      m.memory.get?_set_ne v (Ne.symm (hne rfl address htop))⟩
  | pop =>
    obtain ⟨_, -, h⟩ := pop_bind_ok h
    cases h
    exact ⟨.inl ⟨rfl, by simp⟩, rfl, fun _ _ => rfl, fun _ => rfl, fun _ _ _ => rfl⟩
  | stm | shp =>
    obtain ⟨_, -, h⟩ := pop_bind_ok h
    obtain rfl := modify_ok h
    exact ⟨.inl ⟨rfl, by simp⟩, rfl, fun _ _ => rfl, fun _ => rfl, fun _ _ _ => rfl⟩
  | sra =>
    obtain ⟨_, -, h⟩ := pop_bind_ok h
    obtain rfl := modify_ok h
    exact ⟨.inl ⟨rfl, by simp⟩, rfl, fun _ _ => rfl, fun hne => absurd rfl hne, fun _ _ _ => rfl⟩
  | sfp =>
    obtain ⟨_, -, h⟩ := pop_bind_ok h
    obtain rfl := modify_ok h
    exact ⟨.inl ⟨rfl, by simp⟩, rfl, fun _ hne => absurd rfl hne, fun _ => rfl, fun _ _ _ => rfl⟩
  | cfp =>
    obtain rfl := modify_ok h
    exact ⟨.inl ⟨rfl, by simp⟩, rfl, fun hne => absurd rfl hne, fun _ => rfl, fun _ _ _ => rfl⟩
  | print =>
    obtain rfl := modify_ok h
    exact ⟨.inl ⟨rfl, by simp⟩, rfl, fun _ _ => rfl, fun _ => rfl, fun _ _ _ => rfl⟩
  | halt =>
    cases h
    exact ⟨.inl ⟨rfl, by simp⟩, rfl, fun _ _ => rfl, fun _ => rfl, fun _ _ _ => rfl⟩
  | js => exact absurd rfl hjs

/-- **What a step does to the stack**, unless it jumps. -/
theorem step_moves {i : Instr} (h : step code m = (m', .running)) (hi : code[m.ip]? = some i) (hjs : i ≠ .op .js) :
    Moves i m m' := by
  obtain ⟨-, hx⟩ := step_ok h hi
  cases i with
  | push v =>
    exact .of_push (by simp) rfl hx rfl rfl rfl rfl rfl
  | branch b t =>
    have hcompare : ∀ holds, b ≠ .always → compareGoto m.ip t holds
        { m with ip := m.ip + 1, steps := m.steps + 1 } = .ok () m' → Moves (.branch b t) m m' := by
      intro holds hb hx
      obtain ⟨right, -, hx⟩ := pop_bind_ok hx
      obtain ⟨left, -, hx⟩ := pop_bind_ok hx
      have hsp : m.sp + 1 + 1 + 0 = m.sp + (Instr.branch b t).takes := by cases b <;> first | exact absurd rfl hb | rfl
      split at hx
      · obtain rfl := modify_ok hx
        exact ⟨.inr ⟨b, rfl⟩, hsp, fun _ _ => rfl, fun _ => rfl, fun _ _ _ => rfl⟩
      · cases hx
        exact ⟨.inl ⟨rfl, fun t' he => hb (by cases he; rfl)⟩, hsp, fun _ _ => rfl, fun _ => rfl, fun _ _ _ => rfl⟩
    cases b with
    | always =>
      obtain rfl := modify_ok hx
      exact ⟨.inr ⟨_, rfl⟩, rfl, fun _ _ => rfl, fun _ => rfl, fun _ _ _ => rfl⟩
    | ifEqual | ifLessEq => exact hcompare _ (by simp) hx
  | op o => exact operate_moves hx fun he => hjs (by rw [he])

/-- **What a jump does.** -/
theorem step_js (h : step code m = (m', .running)) (hi : code[m.ip]? = some (.op .js)) : ∃ v, m.top = some v ∧
    m.ip < Text.maxInt32 ∧
    m' = { m with ip := v.toInt.toNat, sp := m.sp + 1, ra := Int32.ofNat (m.ip + 1), steps := m.steps + 1 } := by
  obtain ⟨-, hx⟩ := step_ok h hi
  obtain ⟨v, htop, hx⟩ := pop_bind_ok hx
  split at hx
  · rename_i hin
    exact ⟨v, htop, hin.2.2, modify_ok hx⟩
  · cases hx

theorem step_sra (h : step code m = (m', .running)) (hi : code[m.ip]? = some (.op .sra)) : m.top = some m'.ra := by
  obtain ⟨_, htop, hx⟩ := pop_bind_ok (step_ok h hi).2
  obtain rfl := modify_ok hx
  exact htop

theorem step_sfp (h : step code m = (m', .running)) (hi : code[m.ip]? = some (.op .sfp)) : m.top = some m'.fp := by
  obtain ⟨_, htop, hx⟩ := pop_bind_ok (step_ok h hi).2
  obtain rfl := modify_ok hx
  exact htop

theorem top_of_push (h : push ip v m = .ok () m') (hsp : m.sp ≤ m.memory.size) : m'.top = some v := by
  obtain ⟨h0, rfl⟩ := push_ok h
  show (m.memory.set (m.sp - 1) v).get? (m.sp - 1) = some v
  rw [Memory.get?_set, if_pos (by omega), if_pos rfl]

theorem step_lra (h : step code m = (m', .running)) (hi : code[m.ip]? = some (.op .lra))
    (hsp : m.sp ≤ m.memory.size) : m'.top = some m.ra := top_of_push (step_ok h hi).2 hsp

theorem step_lfp (h : step code m = (m', .running)) (hi : code[m.ip]? = some (.op .lfp))
    (hsp : m.sp ≤ m.memory.size) : m'.top = some m.fp := top_of_push (step_ok h hi).2 hsp

end Machine
end FoolLang
