import FoolLang.Proofs.Activations
import Mathlib.Logic.Relation
/-!
# Passing — what a run passes on the way through code

A run between two machines in one activation goes on in strides: a stride is a line, or a call until it has come back
(`Machine.Stride`).  It passes the places that lie before the later machine, with so many values on top of cells that it
leaves alone (`Trip.Passes`); each line has one lemma on how it is passed, and the code of an expression is passed
leaving a value (`Expr.passes`).
-/
namespace FoolLang

/-- The instructions of a code. -/
abbrev Code.instrs (code : Code) : Array Instr := code.link.toArray

namespace Machine

/-- A machine that a run of a code has come to. -/
def Live (code : Code) (memory : Nat) (m : Machine) : Prop :=
  ∃ n, run code.instrs n (.fresh memory) = (m, .running)

/-- A machine about to run the last lines of a code. -/
def Before (m : Machine) (code rest : Code) : Prop := ∃ pre, pre ++ rest = code ∧ m.ip = pre.size

variable {code rest : Code} {memory : Nat} {m m' : Machine} {line : Line} {l : Label}

theorem Live.step (h : m.Live code memory) (hs : Machine.step code.instrs m = (m', .running)) : m'.Live code memory :=
  h.elim fun n hr => ⟨n + 1, (run_succ_of_running hr).trans hs⟩

theorem Activation.live (h : Activation code.instrs m m') (hm : m.Live code memory) : m'.Live code memory :=
  h.keeps (fun _ _ h hs => h.step hs) hm

theorem Before.suffix (h : m.Before code rest) : rest <:+ code := h.elim fun _ hp => ⟨_, hp.1⟩

theorem Before.instr {i : Instr} (h : m.Before code (line :: rest)) (hi : line.instr? code.address = some i) :
    code.instrs[m.ip]? = some i := by
  obtain ⟨pre, hp, hip⟩ := h
  rw [List.getElem?_toArray, hip]
  exact Code.getElem?_link hp hi

theorem Before.next (h : m.Before code (line :: rest)) (hl : line.isInstr = true) (hip : m'.ip = m.ip + 1) :
    m'.Before code rest := by
  obtain ⟨pre, rfl, hp⟩ := h
  refine ⟨pre ++ [line], by rw [List.append_assoc]; rfl, ?_⟩
  rw [hip, hp, Code.size_append, Code.size_cons, if_pos hl]
  rfl

theorem Before.define (h : m.Before code (.define l :: rest)) : m.Before code rest := by
  obtain ⟨pre, rfl, hp⟩ := h
  refine ⟨pre ++ [.define l], by rw [List.append_assoc]; rfl, ?_⟩
  rw [hp, Code.size_append, Code.size_define]
  rfl

theorem Before.size (h : m.Before code rest) : m.ip + rest.size = code.size := by
  obtain ⟨pre, rfl, hp⟩ := h
  rw [Code.size_append, hp]

/-- A machine has one instruction to run next, so there is one line it can be before. -/
theorem Before.unique {line' : Line} {rest' : Code} (h : m.Before code (line :: rest))
    (h' : m.Before code (line' :: rest')) (hl : line.isInstr = true) (hl' : line'.isInstr = true) : rest = rest' := by
  have hinside : ∀ {l l' : Line} {a b : Code}, l.isInstr = true → l :: a <:+ l' :: b →
      Code.size (l :: a) = Code.size (l' :: b) → l'.isInstr = true → a = b := by
    rintro l l' a b hl ⟨x, hx⟩ hsize hl'
    cases x with
    | nil => exact (List.cons.inj hx).2
    | cons y x =>
      obtain ⟨rfl, rfl⟩ := List.cons.inj hx
      have happend := Code.size_append x (l :: a)
      rw [Code.size_cons y, if_pos hl'] at hsize
      change Code.size (x.append (l :: a)) = _ at happend
      omega
  have hsize := h.size
  have hsize' := h'.size
  rcases List.suffix_or_suffix_of_suffix h.suffix h'.suffix with hs | hs
  · exact hinside hl hs (by omega) hl'
  · exact (hinside hl' hs (by omega) hl).symm

end Machine

open Machine

/-- What the machines keep to that run a code: the stack lies in the memory, a value is stored below its top, a branch
goes to a later line, and a jump that does not return calls a routine that takes as many arguments as the call has. -/
structure Code.Disciplined (code : Code) (memory : Nat) : Prop where
  definedOnce : ∀ l, code.count (.define l) ≤ 1
  room : ∀ m : Machine, m.Live code memory → m.sp ≤ m.memory.size
  stores : ∀ m : Machine, m.Live code memory → code.instrs[m.ip]? = some (.op .sw) →
    ∃ v, m.top = some v ∧ v.toInt.toNat ≤ m.sp
  forward : ∀ (m : Machine) b t, m.Live code memory → code.instrs[m.ip]? = some (.branch b t) → m.ip < t
  calls : ∀ m : Machine, m.Live code memory → code.instrs[m.ip]? = some (.op .js) → ¬m.Returning code.instrs →
    ∃ rest f n, m.Before code (.op .js :: rest) ∧ code.CallsWith memory rest n ∧ code.Takes memory f n ∧
      m.top = some (Int32.ofNat (code.address (.routine f)))

theorem Code.Disciplined.before_of_address {code after : Code} {memory : Nat} {m : Machine} {l : Label}
    (h : code.Disciplined memory) (hs : .define l :: after <:+ code) (hip : m.ip = code.address l) :
    m.Before code (.define l :: after) := by
  obtain ⟨pre, hp⟩ := hs
  exact ⟨pre, hp, hip.trans (Code.address_of_define hp (h.definedOnce l))⟩

/-- A machine calls a routine that takes `n` arguments, and that returns to another machine. -/
def Machine.Calls (code : Code) (memory n : Nat) (m m' : Machine) : Prop :=
  ∃ f m₁ m₂, code.instrs[m.ip]? = some (.op .js) ∧ ¬m.Returning code.instrs ∧
    step code.instrs m = (m₁, .running) ∧ m₁.ip = code.address (.routine f) ∧ code.Takes memory f n ∧
    Activation code.instrs m₁ m₂ ∧ m₂.Returning code.instrs ∧ step code.instrs m₂ = (m', .running)

/-- What a call with `n` arguments does by the time it comes back: its address, the access link and the arguments are
gone, and a value stands where the frame pointer was kept, which is the frame pointer again. -/
structure Machine.CameBack (n : Nat) (m m' : Machine) : Prop where
  ip : m'.ip = m.ip + 1
  sp : m'.sp = m.sp + (n + 2)
  fp : m.memory.get? m'.sp = some m'.fp
  cells : ∀ a, m'.sp < a → m'.memory.get? a = m.memory.get? a

/-- A line, or a call until it has come back. -/
inductive Machine.Stride (code : Code) (memory : Nat) : Machine → Machine → Prop
  | line {m m' : Machine} : code.instrs[m.ip]? ≠ some (.op .js) → step code.instrs m = (m', .running) →
      Stride code memory m m'
  | call {m m' : Machine} {rest : Code} {n : Nat} : m.Before code (.op .js :: rest) → code.CallsWith memory rest n →
      m.Calls code memory n m' → m.CameBack n m' → Stride code memory m m'

theorem Machine.Calls.activation {code : Code} {memory n : Nat} {m m' : Machine} (h : m.Calls code memory n m') :
    Activation code.instrs m m' := by
  obtain ⟨f, m₁, m₂, hjs, hr, hs, -, -, hin, hr', hs'⟩ := h
  exact .call hjs hr hs hin hr' hs' (.refl _)

theorem Machine.Stride.activation {code : Code} {memory : Nat} {m m' : Machine} (h : Stride code memory m m') :
    Activation code.instrs m m' := by
  cases h with
  | line hjs hs => exact .line hjs hs (.refl _)
  | call _ _ hc _ => exact hc.activation

/-- Strides from one machine to another. -/
abbrev Machine.Path (code : Code) (memory : Nat) : Machine → Machine → Prop :=
  Relation.ReflTransGen (Stride code memory)

/-! ## Passing lines -/

/-- A machine that has `p` values on top of what `base` has from address `b` on, in the same frame. -/
structure Machine.Atop (base : Machine) (b p : Nat) (m : Machine) : Prop where
  fp : m.fp = base.fp
  sp : m.sp + p = b
  cells : ∀ a, b ≤ a → m.memory.get? a = base.memory.get? a

theorem Machine.Atop.refl (m : Machine) : m.Atop m.sp 0 m := ⟨rfl, rfl, fun _ _ => rfl⟩

/-- The way of a run of a code from one machine to another. -/
structure Trip where
  code : Code
  memory : Nat
  disciplined : code.Disciplined memory
  start : Machine
  target : Machine

namespace Trip

variable {T : Trip} {rest after fin : Code} {p n b k : Nat} {base m m' : Machine} {line : Line} {l : Label}
  {Q Q' : Machine → Prop}

/-- The trip ends past the lines before these, or it ends where the activation does. -/
def Past (T : Trip) (rest : Code) : Prop :=
  T.code.size ≤ T.target.ip + rest.size ∨ T.target.Returning T.code.instrs

/-- A trip within one activation passes these lines with `Q`, if it ends past them. -/
def Passes (T : Trip) (rest : Code) (Q : Machine → Prop) : Prop :=
  T.Past rest → ∃ m, m.Live T.code T.memory ∧ Activation T.code.instrs T.start m ∧ m.Before T.code rest ∧
    Path T.code T.memory m T.target ∧ Q m

theorem Past.of_suffix {rest' : Code} (h : T.Past rest) (hs : rest <:+ rest') : T.Past rest' := by
  obtain ⟨x, rfl⟩ := hs
  refine h.imp_left fun h => ?_
  rw [Code.size_append]
  omega

theorem Passes.mono (h : T.Passes rest Q) (hQ : ∀ m, Q m → Q' m) : T.Passes rest Q' := fun hpast =>
  let ⟨m, hm, ha, hb, hp, hq⟩ := h hpast
  ⟨m, hm, ha, hb, hp, hQ m hq⟩

/-- The machine that passes some lines can be named. -/
theorem Passes.bind (h : T.Passes rest Q) (hs : fin <:+ rest)
    (hk : ∀ m, rest <:+ T.code → Q m → T.Passes rest (· = m) → T.Passes fin Q') : T.Passes fin Q' := fun hpast =>
  let ⟨m, hm, ha, hb, hp, hq⟩ := h (hpast.of_suffix hs)
  hk m hb.suffix hq (fun _ => ⟨m, hm, ha, hb, hp, rfl⟩) hpast

theorem Passes.define (h : T.Passes (.define l :: rest) Q) : T.Passes rest Q := fun hpast =>
  let ⟨m, hm, ha, hb, hp, hq⟩ := h (hpast.of_suffix (List.suffix_cons _ _))
  ⟨m, hm, ha, hb.define, hp, hq⟩

/-- **A line that is no jump is left by a step.** -/
theorem Passes.leave {i : Instr} (h : T.Passes (line :: rest) Q) (hi : line.instr? T.code.address = some i)
    (hjs : i ≠ .op .js) (hpast : T.Past rest) :
    ∃ m m', m.Live T.code T.memory ∧ m.Before T.code (line :: rest) ∧ Q m ∧
      step T.code.instrs m = (m', .running) ∧ T.code.instrs[m.ip]? = some i ∧ Moves i m m' ∧
      m'.Live T.code T.memory ∧ Activation T.code.instrs T.start m' ∧ Path T.code T.memory m' T.target := by
  obtain ⟨m, hm, ha, hb, hp, hq⟩ := h (hpast.of_suffix (List.suffix_cons _ _))
  have hl : line.isInstr = true := by rw [← line.isSome_instr? T.code.address, hi]; rfl
  have hinstr := hb.instr hi
  rcases hp.cases_head with heq | ⟨m', hs, hp⟩
  · exfalso
    rcases hpast with hpast | hpast
    · have hsize := hb.size
      rw [Code.size_cons, if_pos hl] at hsize
      rw [← heq] at hpast
      omega
    · rw [← heq] at hpast
      exact hjs (Option.some.inj (hinstr.symm.trans hpast.1))
  · cases hs with
    | line _ hs =>
      exact ⟨m, m', hm, hb, hq, hs, hinstr, step_moves hs hinstr hjs, hm.step hs,
        ha.trans (.line (by rw [hinstr]; simpa using hjs) hs (.refl _)), hp⟩
    | call hb' _ _ _ => exact absurd (Option.some.inj (hinstr.symm.trans (hb'.instr rfl))) hjs

/-- One line that goes on at the next one. -/
theorem Passes.next {i : Instr} (h : T.Passes (line :: rest) Q) (hi : line.instr? T.code.address = some i)
    (hjs : i ≠ .op .js) (hbranch : ∀ b t, i ≠ .branch b t)
    (hQ : ∀ m m', m.Live T.code T.memory → Q m → step T.code.instrs m = (m', .running) →
      T.code.instrs[m.ip]? = some i → Moves i m m' → m'.ip = m.ip + 1 → Q' m') : T.Passes rest Q' := fun hpast => by
  obtain ⟨m, m', hm, hb, hq, hs, hinstr, hmoves, hm', ha, hp⟩ := h.leave hi hjs hpast
  have hl : line.isInstr = true := by rw [← line.isSome_instr? T.code.address, hi]; rfl
  have hip : m'.ip = m.ip + 1 := by
    rcases hmoves.ip with ⟨hip, -⟩ | ⟨b, hb⟩
    · exact hip
    · exact absurd hb (hbranch _ _)
  exact ⟨m', hm', ha, hb.next hl hip, hp, hQ m m' hm hq hs hinstr hmoves hip⟩

/-- An instruction that leaves the frame pointer alone works on the topmost values only. -/
theorem atop_step {i : Instr} (h : Atop base b (p + i.takes) m) (hm : m.Live T.code T.memory)
    (hi : T.code.instrs[m.ip]? = some i) (hmoves : Moves i m m') (hcfp : i ≠ .op .cfp) (hsfp : i ≠ .op .sfp) :
    Atop base b (p + i.leaves) m' := by
  have hsp := hmoves.sp
  have hsp₀ := h.sp
  refine ⟨(hmoves.fp hcfp hsfp).trans h.fp, by omega, fun a ha => ?_⟩
  rw [hmoves.cells a (by omega) fun hsw v hv => ?_, h.cells a ha]
  subst hsw
  obtain ⟨w, hw, hle⟩ := T.disciplined.stores m hm hi
  obtain rfl : v = w := Option.some.inj (hv.symm.trans hw)
  have htwo : Instr.takes (.op .sw) = 2 := rfl
  omega

end Trip

/-- The lines that work on the stack alone. -/
def Line.isPlain : Line → Bool
  | .push _ | .pushLabel _ => true
  | .op o => o ∉ [.js, .sfp, .cfp]
  | _ => false

def Line.takes : Line → Nat
  | .op o => o.takes
  | _ => 0

def Line.leaves : Line → Nat
  | .op o => o.leaves
  | _ => 1

theorem Line.exists_plain {line : Line} (h : line.isPlain = true) (address : Label → Nat) :
    ∃ i, line.instr? address = some i ∧ i ≠ .op .js ∧ (∀ b t, i ≠ .branch b t) ∧ i ≠ .op .cfp ∧ i ≠ .op .sfp ∧
      i.takes = line.takes ∧ i.leaves = line.leaves := by
  cases line with
  | push | pushLabel => exact ⟨_, rfl, by simp, by simp, by simp, by simp, rfl, rfl⟩
  | op o =>
    have hne : o ≠ .js ∧ o ≠ .sfp ∧ o ≠ .cfp := by simpa [Line.isPlain] using h
    exact ⟨_, rfl, by simpa using hne.1, by simp, by simpa using hne.2.2, by simpa using hne.2.1, rfl, rfl⟩
  | define | branch => cases h

namespace Trip

variable {T : Trip} {rest after fin : Code} {p n b k : Nat} {base : Machine} {line : Line} {l : Label}
  {Q Q' : Machine → Prop}

/-- **A plain line takes so many values and leaves so many.** -/
theorem Passes.plain (h : T.Passes (line :: rest) (Atop base b (p + line.takes))) (hl : line.isPlain = true) :
    T.Passes rest (Atop base b (p + line.leaves)) := by
  obtain ⟨i, hi, hjs, hbranch, hcfp, hsfp, htakes, hleaves⟩ := Line.exists_plain hl T.code.address
  rw [← htakes] at h
  rw [← hleaves]
  exact h.next hi hjs hbranch fun m m' hm hq _ hinstr hmoves _ => atop_step hq hm hinstr hmoves hcfp hsfp

theorem Passes.goto (h : T.Passes (.branch .always l :: rest) (Atop base b p)) (hl : .define l :: after <:+ rest) :
    T.Passes after (Atop base b p) := fun hpast => by
  have hafter : after <:+ rest := (List.suffix_cons _ _).trans hl
  obtain ⟨m, m', hm, hb, hq, -, hinstr, hmoves, hm', ha, hp⟩ :=
    h.leave (i := .branch .always (T.code.address l)) rfl (by simp) (hpast.of_suffix hafter)
  have hip : m'.ip = T.code.address l := by
    rcases hmoves.ip with ⟨-, hne⟩ | ⟨_, he⟩
    · exact absurd rfl (hne _)
    · exact (Instr.branch.inj he).2.symm
  have hbefore := T.disciplined.before_of_address (hl.trans ((List.suffix_cons _ _).trans hb.suffix)) hip
  exact ⟨m', hm', ha, hbefore.define, hp, atop_step hq hm hinstr hmoves (by simp) (by simp)⟩

/-- A branch that is taken or not: either way goes on to the same lines. -/
theorem Passes.branch {t : Branch} (h : T.Passes (.branch t l :: rest) (Atop base b (p + 2))) (ht : t ≠ .always)
    (hl : .define l :: after <:+ rest) (hs : fin <:+ after)
    (hrest : T.Passes rest (Atop base b p) → T.Passes fin Q')
    (hafter : T.Passes after (Atop base b p) → T.Passes fin Q') : T.Passes fin Q' := fun hpast => by
  have hs' : after <:+ rest := (List.suffix_cons _ _).trans hl
  obtain ⟨m, m', hm, hb, hq, -, hinstr, hmoves, hm', ha, hp⟩ :=
    h.leave (i := .branch t (T.code.address l)) rfl (by simp) (hpast.of_suffix (hs.trans hs'))
  have htakes : Instr.takes (.branch t (T.code.address l)) = 2 := by
    cases t with
    | always => exact absurd rfl ht
    | ifEqual | ifLessEq => rfl
  rw [← htakes] at hq
  have hq' : Atop base b p m' := atop_step hq hm hinstr hmoves (by simp) (by simp)
  rcases hmoves.ip with ⟨hip, -⟩ | ⟨_, he⟩
  · exact hrest (fun _ => ⟨m', hm', ha, hb.next rfl hip, hp, hq'⟩) hpast
  · have hl' := hl.trans ((List.suffix_cons _ _).trans hb.suffix)
    have hbefore := T.disciplined.before_of_address hl' (Instr.branch.inj he).2.symm
    exact hafter (fun _ => ⟨m', hm', ha, hbefore.define, hp, hq'⟩) hpast

/-! ## Passing pieces of code -/

theorem Passes.hops : ∀ {n : Nat}, T.Passes (List.replicate n (.op .lw) ++ rest) (Atop base b (p + 1)) →
    T.Passes rest (Atop base b (p + 1))
  | 0, h => h
  | n + 1, h => by
    rw [List.replicate_succ, List.cons_append] at h
    exact (h.plain rfl).hops

theorem Passes.frame {u : Use} {e : Entry} (h : T.Passes (Line.frame u e ++ rest) (Atop base b p)) :
    T.Passes rest (Atop base b (p + 1)) := (h.plain rfl).hops

theorem Passes.loadAt {offset : Int} (h : T.Passes (Line.loadAt offset ++ rest) (Atop base b (p + 1))) :
    T.Passes rest (Atop base b (p + 1)) := ((h.plain rfl).plain rfl).plain rfl

theorem Passes.shareLink (h : T.Passes (Line.shareLink ++ rest) (Atop base b (p + 1))) :
    T.Passes rest (Atop base b (p + 2)) := ((h.plain rfl).plain rfl).plain rfl

theorem Passes.load {u : Use} (hu : u.entry.isSome) (h : T.Passes (u.load ++ rest) (Atop base b p)) :
    T.Passes rest (Atop base b (p + 1)) := by
  obtain ⟨e, he⟩ := Option.isSome_iff_exists.1 hu
  rw [Use.load, he, List.append_assoc] at h
  exact h.frame.loadAt

theorem Passes.bumpHeap (h : T.Passes (Line.bumpHeap ++ rest) (Atop base b p)) : T.Passes rest (Atop base b p) :=
  (((h.plain rfl).plain rfl).plain rfl).plain rfl

theorem Passes.allocate (h : T.Passes (Line.allocate ++ rest) (Atop base b (p + 1))) :
    T.Passes rest (Atop base b p) := ((h.plain rfl).plain rfl).bumpHeap

theorem Passes.allocateAll : ∀ {n : Nat},
    T.Passes ((List.replicate n Line.allocate).flatten ++ rest) (Atop base b (p + n)) → T.Passes rest (Atop base b p)
  | 0, h => h
  | n + 1, h => by
    rw [List.replicate_succ, List.flatten_cons, List.append_assoc] at h
    exact h.allocate.allocateAll

theorem Passes.instantiate {cls : Option Entry} (hcls : cls.isSome)
    (h : T.Passes (FoolLang.instantiate T.memory n cls ++ rest) (Atop base b (p + n))) :
    T.Passes rest (Atop base b (p + 1)) := by
  obtain ⟨e, rfl⟩ := Option.isSome_iff_exists.1 hcls
  rw [FoolLang.instantiate] at h
  simp only [List.append_assoc, List.cons_append] at h
  have hpointer := (h.allocateAll.plain rfl).loadAt
  exact (((hpointer.plain rfl).plain rfl).plain rfl).bumpHeap

/-- A comparison that settles the outcome, or leaves it to the lines between. -/
theorem Passes.skip {t : Branch} {x y : Int} {mid : Code} (ht : t ≠ .always)
    (h : T.Passes (.branch t (.branch k) :: (mid ++ Host.outcomes x y k rest)) (Atop base b (p + 2)))
    (hmid : T.Passes (mid ++ Host.outcomes x y k rest) (Atop base b p) → T.Passes rest (Atop base b (p + 1))) :
    T.Passes rest (Atop base b (p + 1)) :=
  h.branch ht ((Host.taken_suffix x y k rest).trans (List.suffix_append _ _))
    (List.suffix_append [Line.push y, .define (.branch (k + 1))] rest) hmid fun h => (h.plain rfl).define

/-- Two values are compared, and the outcome is put on the stack. -/
theorem Passes.truth {t : Branch} {x y : Int} (ht : t ≠ .always)
    (h : T.Passes (.branch t (.branch k) :: Host.outcomes x y k rest) (Atop base b (p + 2))) :
    T.Passes rest (Atop base b (p + 1)) :=
  have h' : T.Passes (.branch t (.branch k) :: ([] ++ Host.outcomes x y k rest)) (Atop base b (p + 2)) := h
  h'.skip ht fun h => (h.plain rfl).goto (List.suffix_append [Line.define (.branch k), .push y] _)

/-- A choice between two pieces of code that leave a value each. -/
theorem Passes.choose {x y : Code} (h : T.Passes (.branch .ifEqual (.branch k) :: (x ++
      .branch .always (.branch (k + 1)) :: .define (.branch k) :: (y ++ .define (.branch (k + 1)) :: rest)))
      (Atop base b (p + 2)))
    (hx : ∀ {rest : Code}, T.Passes (x ++ rest) (Atop base b p) → T.Passes rest (Atop base b (p + 1)))
    (hy : ∀ {rest : Code}, T.Passes (y ++ rest) (Atop base b p) → T.Passes rest (Atop base b (p + 1))) :
    T.Passes rest (Atop base b (p + 1)) := by
  have helse : .define (.branch k) :: (y ++ .define (.branch (k + 1)) :: rest) <:+ x ++
      .branch .always (.branch (k + 1)) :: .define (.branch k) :: (y ++ .define (.branch (k + 1)) :: rest) :=
    (List.suffix_cons _ _).trans (List.suffix_append _ _)
  have hend : .define (.branch (k + 1)) :: rest <:+
      .define (.branch k) :: (y ++ .define (.branch (k + 1)) :: rest) :=
    (List.suffix_append _ _).trans (List.suffix_cons _ _)
  exact h.branch (by decide) helse ((List.suffix_cons _ _).trans (List.suffix_append _ _)) (fun h => (hx h).goto hend)
    fun h => (hy h).define

/-! ## Calls inside expressions -/

/-- In the activation where a trip starts, a routine that takes `n` arguments has been called and has just returned. -/
def Called (T : Trip) (n : Nat) (m : Machine) : Prop :=
  ∃ m₁, Activation T.code.instrs T.start m₁ ∧ m₁.Calls T.code T.memory n m ∧ m₁.CameBack n m

/-- A jump to a routine, with the frame pointer kept right where `base` ends. -/
theorem Passes.jump (h : T.Passes (.op .lw :: .op .js :: rest) (Atop base base.sp (n + 2)))
    (hsite : T.code.CallsWith T.memory rest n) (hframe : base.top = some base.fp) :
    T.Passes rest fun m => Atop base (base.sp + 1) 1 m ∧ T.Called n m := by
  -- the jump is told from a return by the line before it
  have hlw : T.Passes (.op .js :: rest) fun m => Atop base base.sp (n + 2) m ∧
      ∃ i, m.ip = i + 1 ∧ T.code.instrs[i]? = some (.op .lw) :=
    h.next (i := .op .lw) rfl (by simp) (by simp) fun m m' hm hq _ hinstr hmoves hip =>
      have hq' : Atop base base.sp (n + 1 + Instr.takes (.op .lw)) m := hq
      ⟨atop_step hq' hm hinstr hmoves (by simp) (by simp), m.ip, hip, hinstr⟩
  intro hpast
  obtain ⟨m, hm, ha, hb, hp, hq, i, hip, hi⟩ := hlw (hpast.of_suffix (List.suffix_cons _ _))
  have hinstr : T.code.instrs[m.ip]? = some (.op .js) := hb.instr rfl
  rcases hp.cases_head with heq | ⟨m', hs, hp⟩
  · exfalso
    rcases hpast with hpast | ⟨-, j, hj, hlra⟩
    · have hsize := hb.size
      rw [Code.size_op] at hsize
      rw [← heq] at hpast
      omega
    · rw [← heq] at hj
      obtain rfl : i = j := by omega
      rw [hi] at hlra
      cases hlra
  cases hs with
  | line hjs => exact absurd hinstr hjs
  | call hb' hsite' hcalls hback =>
    obtain rfl := hb.unique hb' rfl rfl
    obtain rfl := hsite.unique hsite'
    have hsp : m'.sp = base.sp := by rw [hback.sp, ← hq.sp]
    have hfp : m'.fp = base.fp := by
      have hkept := hback.fp
      rw [hsp, hq.cells base.sp (Nat.le_refl _)] at hkept
      exact Option.some.inj (hkept.symm.trans hframe)
    refine ⟨m', hcalls.activation.live hm, ha.trans hcalls.activation, hb.next rfl hback.ip, hp, ⟨hfp, by omega, ?_⟩,
      m, ha, hcalls, hback⟩
    exact fun a ha => (hback.cells a (by omega)).trans (hq.cells a (by omega))

theorem Passes.invoke {u : Use} (hu : u.entry.isSome) (h : T.Passes (u.invoke ++ rest) (Atop base base.sp n))
    (hsite : T.code.CallsWith T.memory rest n) (hframe : base.top = some base.fp) :
    T.Passes rest fun m => Atop base (base.sp + 1) 1 m ∧ T.Called n m := by
  obtain ⟨e, he⟩ := Option.isSome_iff_exists.1 hu
  rw [Use.invoke, he] at h
  simp only [List.append_assoc] at h
  have hlink := h.frame.shareLink
  have hload : T.Passes (Line.loadAt e.offset ++ ([.op .js] ++ rest)) (Atop base base.sp (n + 2)) := by
    split at hlink
    · exact hlink.plain rfl
    · exact hlink
  exact ((hload.plain rfl).plain rfl).jump hsite hframe

theorem Passes.dispatch {u : Use} {method : Option Entry} (hu : u.entry.isSome ∧ method.isSome)
    (h : T.Passes (u.dispatch method ++ rest) (Atop base base.sp n)) (hsite : T.code.CallsWith T.memory rest n)
    (hframe : base.top = some base.fp) : T.Passes rest fun m => Atop base (base.sp + 1) 1 m ∧ T.Called n m := by
  obtain ⟨e, he⟩ := Option.isSome_iff_exists.1 hu.1
  obtain ⟨d, rfl⟩ := Option.isSome_iff_exists.1 hu.2
  simp only [Use.dispatch, he, List.append_assoc] at h
  have hlink := h.frame.loadAt.shareLink
  exact (((hlink.plain rfl).plain rfl).plain rfl).jump hsite hframe

/-- The frame pointer is kept where a value will be, and the lines that put it there bring the frame back. -/
theorem Passes.keepFrame (h : T.Passes (.op .lfp :: rest) (Atop base b p)) (hs : fin <:+ rest)
    (hk : ∀ inner : Machine, inner.top = some inner.fp → T.Passes rest (Atop inner inner.sp 0) →
      T.Passes fin fun m => Atop inner (inner.sp + 1) 1 m ∧ Q m) :
    T.Passes fin fun m => Atop base b (p + 1) m ∧ Q m := by
  have hlfp : T.Passes rest fun m => Atop base b (p + 1) m ∧ m.top = some m.fp :=
    h.next (i := .op .lfp) rfl (by simp) (by simp) fun m m' hm hq hs hinstr hmoves _ => by
      have hq' : Atop base b (p + Instr.takes (.op .lfp)) m := hq
      refine ⟨atop_step hq' hm hinstr hmoves (by simp) (by simp), ?_⟩
      rw [step_lfp hs hinstr (T.disciplined.room _ hm), hmoves.fp (by simp) (by simp)]
  refine hlfp.bind hs fun inner _ ⟨hinner, htop⟩ h₁ => ?_
  refine (hk inner htop (h₁.mono fun m hm => hm ▸ .refl inner)).mono fun m ⟨hm, hq⟩ => ⟨⟨?_, ?_, fun a ha => ?_⟩, hq⟩
  · exact hm.fp.trans hinner.fp
  · have hsp := hm.sp
    have hsp₁ := hinner.sp
    omega
  · have hsp₁ := hinner.sp
    exact (hm.cells a (by omega)).trans (hinner.cells a ha)

/-- **A call leaves a value and the frame as it was**, if its arguments leave their values. -/
theorem Passes.call {call : Expr} {args : List Expr} (hargs : call.arguments? = some args)
    (hc : ∀ x ∈ call.nodes, x.Complete ∧ x.OffsetsFit)
    (hback : ∀ {base : Machine} {b p : Nat} {rest : Code}, T.Passes (codeBack T.memory k args ++ rest) (Atop base b p) →
      T.Passes rest (Atop base b (p + args.length)))
    (h : T.Passes (call.code T.memory k ++ rest) (Atop base b p)) :
    T.Passes rest fun m => Atop base b (p + 1) m ∧ T.Called args.length m := by
  have hcomplete := (hc call call.mem_nodes).1
  refine h.bind (List.suffix_append _ _) fun m₀ hsuffix hm₀ h₀ => ?_
  have hsite : T.code.CallsWith T.memory rest args.length := ⟨call, args, k, hargs, rfl, hc, hsuffix⟩
  replace h₀ := h₀.mono fun m hm => (hm ▸ hm₀ : Atop base b p m)
  cases call <;> cases hargs
  case call l u =>
    rw [Expr.code, List.cons_append, List.cons_append, List.append_assoc] at h₀
    refine h₀.keepFrame ((List.suffix_append _ _).trans (List.suffix_append _ _)) fun inner htop h₁ => ?_
    have hvalues := hback h₁
    rw [Nat.zero_add] at hvalues
    exact hvalues.invoke hcomplete hsite htop
  case send l u x d =>
    rw [Expr.code, List.cons_append, List.cons_append, List.append_assoc] at h₀
    refine h₀.keepFrame ((List.suffix_append _ _).trans (List.suffix_append _ _)) fun inner htop h₁ => ?_
    have hvalues := hback h₁
    rw [Nat.zero_add] at hvalues
    exact hvalues.dispatch hcomplete hsite htop

end Trip

section

open Trip

variable {T : Trip}

mutual

/-- **The code of an expression leaves a value**, and what lies below it and the frame stay as they are. -/
theorem Expr.passes : ∀ (e : Expr) (k : Nat) {base : Machine} {b p : Nat} {rest : Code},
    (∀ x ∈ e.nodes, x.Complete ∧ x.OffsetsFit) → T.Passes (e.code T.memory k ++ rest) (Atop base b p) →
    T.Passes rest (Atop base b (p + 1))
  | .int _ _, _, _, _, _, _, _, h | .bool _ _, _, _, _, _, _, _, h | .null _, _, _, _, _, _, _, h => h.plain rfl
  | .binary _ op x y, k, base, b, p, rest, hc, h => by
    obtain ⟨-, hx, hy⟩ := Expr.forall_nodes_binary.1 hc
    cases op with
    | plus | minus | times | div =>
      simp only [Expr.code, List.append_assoc] at h
      exact (y.passes _ hy (x.passes _ hx h)).plain rfl
    | equal | lessEqual =>
      simp only [Expr.code, List.append_assoc] at h
      exact (y.passes _ hy (x.passes _ hx h)).truth (by decide)
    | greaterEqual =>
      simp only [Expr.code, List.append_assoc] at h
      exact (x.passes _ hx (y.passes _ hy h)).truth (by decide)
    | and | or =>
      simp only [Expr.code, List.append_assoc] at h
      have hx' := (x.passes _ hx h).plain rfl
      rw [← List.append_assoc] at hx'
      refine hx'.skip (by decide) fun h => ?_
      rw [List.append_assoc] at h
      exact ((y.passes _ hy h).plain rfl).truth (by decide)
  | .not _ x, k, base, b, p, rest, hc, h => by
    rw [Expr.code, List.append_assoc] at h
    exact ((x.passes _ (Expr.forall_nodes_not.1 hc).2 h).plain rfl).truth (by decide)
  | .cond _ c t e, k, base, b, p, rest, hc, h => by
    obtain ⟨-, hcond, ht, he⟩ := Expr.forall_nodes_cond.1 hc
    simp only [Expr.code, List.append_assoc] at h
    exact ((c.passes _ hcond h).plain rfl).choose (e.passes _ he) (t.passes _ ht)
  | .print _ x, k, base, b, p, rest, hc, h => by
    rw [Expr.code, List.append_assoc] at h
    exact (x.passes _ (Expr.forall_nodes_print.1 hc).2 h).plain rfl
  | .id _ u, _, _, _, _, _, hc, h => h.load (hc _ List.mem_cons_self).1
  | .call _ u args, k, base, b, p, rest, hc, h =>
    (h.call rfl hc (passes_codeBack args k (Expr.forall_nodes_call.1 hc).2)).mono fun _ hm => hm.1
  | .send _ u _ d args, k, base, b, p, rest, hc, h =>
    (h.call rfl hc (passes_codeBack args k (Expr.forall_nodes_send.1 hc).2)).mono fun _ hm => hm.1
  | .new _ _ c args, k, base, b, p, rest, hc, h => by
    rw [Expr.code, List.append_assoc] at h
    exact (passes_codeAll args k (Expr.forall_nodes_new.1 hc).2 h).instantiate (hc _ List.mem_cons_self).1

theorem passes_codeAll : ∀ (es : List Expr) (k : Nat) {base : Machine} {b p : Nat} {rest : Code},
    (∀ x ∈ argNodes es, x.Complete ∧ x.OffsetsFit) → T.Passes (codeAll T.memory k es ++ rest) (Atop base b p) →
    T.Passes rest (Atop base b (p + es.length))
  | [], _, _, _, _, _, _, h => h
  | e :: es, k, base, b, p, rest, hc, h => by
    obtain ⟨he, hes⟩ := forall_argNodes_cons.1 hc
    rw [codeAll, List.append_assoc] at h
    have hall := passes_codeAll es _ hes (e.passes k he h)
    rwa [Nat.add_assoc, Nat.add_comm 1] at hall

theorem passes_codeBack : ∀ (es : List Expr) (k : Nat) {base : Machine} {b p : Nat} {rest : Code},
    (∀ x ∈ argNodes es, x.Complete ∧ x.OffsetsFit) → T.Passes (codeBack T.memory k es ++ rest) (Atop base b p) →
    T.Passes rest (Atop base b (p + es.length))
  | [], _, _, _, _, _, _, h => h
  | e :: es, k, base, b, p, rest, hc, h => by
    obtain ⟨he, hes⟩ := forall_argNodes_cons.1 hc
    rw [codeBack, List.append_assoc] at h
    exact e.passes _ he (passes_codeBack es k hes h)

end

/-- **Declarations leave a cell each.** -/
theorem passes_localCode : ∀ (ds : List Dec) (k f : Nat) {base : Machine} {b p : Nat} {rest : Code},
    (∀ x ∈ localNodes ds, x.Complete ∧ x.OffsetsFit) → T.Passes (localCode T.memory k f ds ++ rest) (Atop base b p) →
    T.Passes rest (Atop base b (p + ds.length))
  | [], _, _, _, _, _, _, _, h => h
  | d :: ds, k, f, base, b, p, rest, hc, h => by
    obtain ⟨hd, hds⟩ := forall_localNodes_cons.1 hc
    rw [localCode, List.append_assoc] at h
    have hone : T.Passes (localCode T.memory (k + d.labels) (f + d.routines) ds ++ rest) (Atop base b (p + 1)) := by
      cases d with
      | var _ _ _ v => exact v.passes k hd h
      | func => exact h.plain rfl
    have hall := passes_localCode ds _ _ hds hone
    rwa [Nat.add_assoc, Nat.add_comm 1] at hall

end

end FoolLang
