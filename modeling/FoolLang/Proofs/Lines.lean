import FoolLang.Proofs.Configs
/-!
# Lines — what is reached by running lines of code

The place a machine has got to is told by the lines that remain, a suffix of the code it runs.  `At` tells that the
machine gets to such a place with a certain stack and heap, unless it runs out of memory before; each line has one
lemma on where it leads.
-/
namespace FoolLang

open Assembly

namespace Host

variable {H : Host}

/-- **A label stands for the place of its definition.** -/
theorem address_eq {l : Label} {rest : Code} (h : .define l :: rest <:+ H.code) :
    H.code.address l = H.place rest := by
  obtain ⟨pre, hp⟩ := h
  rw [Code.address_of_define hp (H.definedOnce l), ← place_define l, place_of_suffix hp]

/-- Machines get to where these lines remain, unless they run out of memory before. -/
def At (H : Host) (rest : Code) (s hs : List Cell) (hp : Nat) (fp ra tm : Cell) (out : List Int32) : Prop :=
  rest <:+ H.code ∧ ∃ n, H.Reached ⟨H.place rest, s, hs, hp, fp, ra, tm, out, n⟩

section

variable {rest after : Code} {l : Label} {hp : Nat} {s hs : List Cell} {out : List Int32} {fp ra tm v a b : Cell}
  {x y : Int32}

theorem At.suffix (h : H.At rest s hs hp fp ra tm out) : rest <:+ H.code := h.1

theorem At.starved (h : H.At rest s hs hp fp ra tm out) (hs : H.memory < s.length) : H.Starved out :=
  h.2.elim fun _ hr => ⟨_, hr, hs, List.suffix_refl _⟩

theorem suffix_of_append {p : Code} (h : p ++ rest <:+ H.code) : rest <:+ H.code :=
  (List.suffix_append _ _).trans h

theorem suffix_of_cons {line : Line} (h : line :: rest <:+ H.code) : rest <:+ H.code := (List.suffix_cons _ _).trans h

theorem At.define (h : H.At (.define l :: rest) s hs hp fp ra tm out) : H.At rest s hs hp fp ra tm out :=
  ⟨suffix_of_cons h.1, by rw [← place_define l]; exact h.2⟩

/-- **One line that is an instruction**, and goes on at the next line or elsewhere. -/
theorem At.exec {line : Line} {i : Nat → Instr} {s' hs' : List Cell} {out' : List Int32} {hp' : Nat}
    {fp' ra' tm' : Cell} (h : H.At (line :: rest) s hs hp fp ra tm out)
    (hi : ∀ M, (line.fill M).instr? H.code.address = some (i M)) (hne : ∀ M, i M ≠ .op .halt)
    (hsuits : H.Suits s hs hp fp line rest) (ha : after <:+ H.code) (hout : out <:+ out')
    (hx : ∀ (M n : Nat) (m : Machine), M ≤ Text.maxInt32 →
      m.Shows M ⟨H.place rest, s, hs, hp, fp, ra, tm, out, n⟩ →
      Machine.Lands M (Machine.execute (H.instrsFor M).size (H.place (line :: rest)) (i M) m)
        ⟨H.place after, s', hs', hp', fp', ra', tm', out', n⟩) : H.At after s' hs' hp' fp' ra' tm' out' := by
  have hl : line.isInstr = true := by
    rw [← Code.isInstr_fill (M := 0), ← (line.fill 0).isSome_instr? H.code.address, hi]
    rfl
  obtain ⟨n, hr⟩ := h.2
  refine ⟨ha, n + 1, hr.step (.exec (fun M => instrs_place h.1 (hi M)) hne ⟨line, rest, h.1, hl, rfl, hsuits⟩ rfl hout
    fun M m hM hm => ?_)⟩
  refine hx M _ m hM ?_
  rw [place_cons h.1 hl]
  exact hm

/-- One line that is an instruction and goes on at the next line. -/
theorem At.next {line : Line} {i : Nat → Instr} {s' hs' : List Cell} {hp' : Nat} {fp' ra' tm' : Cell}
    (h : H.At (line :: rest) s hs hp fp ra tm out)
    (hi : ∀ M, (line.fill M).instr? H.code.address = some (i M)) (hne : ∀ M, i M ≠ .op .halt)
    (hsuits : H.Suits s hs hp fp line rest) (hx : ∀ (M n : Nat) (m : Machine), M ≤ Text.maxInt32 →
      m.Shows M ⟨H.place rest, s, hs, hp, fp, ra, tm, out, n⟩ →
      Machine.Lands M (Machine.execute (H.instrsFor M).size (H.place (line :: rest)) (i M) m)
        ⟨H.place rest, s', hs', hp', fp', ra', tm', out, n⟩) : H.At rest s' hs' hp' fp' ra' tm' out :=
  h.exec hi hne hsuits (suffix_of_cons h.1) (List.suffix_refl _) hx

theorem At.push {n : Int} (h : H.At (.push n :: rest) s hs hp fp ra tm out) (hn : FitsWord n) :
    H.At rest (.ofInt n :: s) hs hp fp ra tm out :=
  h.next (i := fun _ => .push (Int32.ofInt n))
    (fun M => by rw [Line.fill_of_fits (show Line.Fits (.push n) from hn)]; rfl) (by simp) trivial
    fun _ _ _ hM hm => hm.push hM _ (.ofInt n)

/-- The size of the memory is the address of its end. -/
theorem At.pushMemory (h : H.At (.push Code.mark :: rest) s hs hp fp ra tm out) :
    H.At rest (.fromEnd 0 :: s) hs hp fp ra tm out :=
  h.next (i := fun M => .push (Int32.ofInt M)) (fun _ => rfl) (by simp) trivial fun M _ _ hM hm => by
    have hend : (Cell.fromEnd 0).word M = Int32.ofInt M := congrArg Int32.ofInt (Int.sub_zero _)
    have hpush := hm.push hM (H.place (.push Code.mark :: rest)) (.fromEnd 0)
    rwa [hend] at hpush

theorem At.pushLabel (h : H.At (.pushLabel l :: rest) s hs hp fp ra tm out) :
    H.At rest (.ofNat (H.code.address l) :: s) hs hp fp ra tm out :=
  h.next (fun _ => rfl) (by simp) trivial fun _ _ _ hM hm => hm.push hM _ (.ofNat _)

theorem At.pop (h : H.At (.op .pop :: rest) (v :: s) hs hp fp ra tm out) : H.At rest s hs hp fp ra tm out :=
  h.next (fun _ => rfl) (by simp) trivial fun M _ m hM hm => by
    obtain ⟨m', hp, hm'⟩ := hm.pop (H.place (.op .pop :: rest))
    show Machine.Lands _ ((Machine.pop _ >>= fun _ => pure ()) m) _
    rw [Machine.bind_ok hp]
    exact hm'.lands hM

theorem At.arith {o : Op} {f : Int32 → Int32 → Int32} (h : H.At (.op o :: rest) (b :: a :: s) hs hp fp ra tm out)
    (ho : o ≠ .halt) (hsuits : H.Suits (b :: a :: s) hs hp fp (.op o) rest)
    (hf : ∀ length ip, Machine.operate length ip o = Machine.arith ip f)
    (hv : ∀ M, v.word M = f (a.word M) (b.word M)) : H.At rest (v :: s) hs hp fp ra tm out :=
  h.next (fun _ => rfl) (by simpa using ho) hsuits fun M _ m hM hm => by
    obtain ⟨m₁, hp₁, hm₁⟩ := hm.pop (H.place (.op o :: rest))
    obtain ⟨m₂, hp₂, hm₂⟩ := hm₁.pop (H.place (.op o :: rest))
    show Machine.Lands _ (Machine.operate (H.instrsFor M).size _ o m) _
    rw [hf, Machine.arith, Machine.bind_ok hp₁, Machine.bind_ok hp₂, ← hv]
    exact hm₂.push hM _ v

theorem At.add (h : H.At (.op .add :: rest) (b :: a :: s) hs hp fp ra tm out) :
    H.At rest ((a + b) :: s) hs hp fp ra tm out := h.arith (by decide) trivial (fun _ _ => rfl) fun _ => rfl

theorem At.sub (h : H.At (.op .sub :: rest) (.const y :: .const x :: s) hs hp fp ra tm out) :
    H.At rest (.const (x - y) :: s) hs hp fp ra tm out := h.arith (by decide) trivial (fun _ _ => rfl) fun _ => rfl

theorem At.mult (h : H.At (.op .mult :: rest) (.const y :: .const x :: s) hs hp fp ra tm out) :
    H.At rest (.const (x * y) :: s) hs hp fp ra tm out := h.arith (by decide) trivial (fun _ _ => rfl) fun _ => rfl

theorem At.div (h : H.At (.op .div :: rest) (.const y :: .const x :: s) hs hp fp ra tm out) (hy : y ≠ 0) :
    H.At rest (.const (x / y) :: s) hs hp fp ra tm out :=
  h.next (fun _ => rfl) (by simp) trivial fun M _ m hM hm => by
    obtain ⟨m₁, hp₁, hm₁⟩ := hm.pop (H.place (.op .div :: rest))
    obtain ⟨m₂, hp₂, hm₂⟩ := hm₁.pop (H.place (.op .div :: rest))
    show Machine.Lands _ ((Machine.pop _ >>= fun right => Machine.pop _ >>= fun left => _) m) _
    rw [Machine.bind_ok hp₁, Machine.bind_ok hp₂, Cell.const]
    simp only [if_neg hy]
    exact hm₂.push hM _ (.const (x / y))

theorem At.divByZero (h : H.At (.op .div :: rest) (.const 0 :: a :: s) hs hp fp ra tm out) :
    H.Faulted (.divisionByZero (H.place (.op .div :: rest))) out := by
  obtain ⟨n, hr⟩ := h.2
  refine hr.fault (fun M => instrs_place h.1 rfl) (by simp) ⟨_, rest, h.1, rfl, rfl, trivial⟩ fun M m hM hm => ?_
  obtain ⟨m₁, hp₁, hm₁⟩ := hm.pop (H.place (.op .div :: rest))
  obtain ⟨m₂, hp₂, hm₂⟩ := hm₁.pop (H.place (.op .div :: rest))
  refine ⟨m₂, ?_, hm₂.printed⟩
  show (Machine.pop _ >>= fun right => Machine.pop _ >>= fun left => _) m = _
  rw [Machine.bind_ok hp₁, Machine.bind_ok hp₂]
  rfl

theorem At.sw (h : H.At (.op .sw :: rest) (.ofNat hs.length :: v :: s) hs hs.length fp ra tm out) :
    H.At rest s (hs ++ [v]) hs.length fp ra tm out :=
  h.next (fun _ => rfl) (by simp) ⟨v, s, rfl⟩ fun M n m hM hm => by
    obtain ⟨m₁, hp₁, hm₁⟩ := hm.pop (H.place (.op .sw :: rest))
    obtain ⟨m₂, hp₂, hm₂⟩ := hm₁.pop (H.place (.op .sw :: rest))
    have hroom : hs.length ≤ m.sp := hm.room
    have hsp : m.sp + (s.length + 2) = M := hm.sp
    have hsp₂ : m₂.sp + s.length = M := hm₂.sp
    have hc := hm₂.cell hM (H.place (.op .sw :: rest)) (show hs.length < M by omega)
    show Machine.Lands _ ((Machine.pop _ >>= fun address => Machine.pop _ >>= fun v => _) m) _
    rw [Machine.bind_ok hp₁, Machine.bind_ok hp₂, Cell.ofNat, Cell.const, Machine.bind_ok hc]
    have hdone : Machine.Shows M { m₂ with memory := m₂.memory.set hs.length (v.word M) }
        ⟨H.place rest, s, hs ++ [v], hs.length, fp, ra, tm, out, n⟩ := {
      cells := hm₂.cells, ip := hm₂.ip, sp := hm₂.sp, hp := hm₂.hp, fp := hm₂.fp, ra := hm₂.ra, tm := hm₂.tm
      printed := hm₂.printed, steps := hm₂.steps
      stack := fun i w hi => by
        have hne : m₂.sp + i ≠ hs.length := by omega
        exact Memory.get?_set_of_ne (v.word M) (hm₂.stack i w hi) hne
      heap := fun i w hi => by
        have hi' : (hs ++ [v])[i]? = some w := hi
        rcases Nat.lt_or_ge i hs.length with hlt | hge
        · rw [List.getElem?_append_left hlt] at hi'
          exact Memory.get?_set_of_ne (v.word M) (hm₂.heap i w hi') (Nat.ne_of_lt hlt)
        · obtain rfl : i = hs.length := by
            have := (List.getElem?_eq_some_iff.1 hi').1
            rw [List.length_append, List.length_singleton] at this
            omega
          rw [List.getElem?_concat_length] at hi'
          cases hi'
          show (m₂.memory.set hs.length (v.word M)).get? hs.length = some (v.word M)
          rw [Memory.get?_set, if_pos (by rw [hm₂.cells]; omega), if_pos rfl]
      end_le := by show hs.length ≤ (hs ++ [v]).length; simp
      le_end := by show (hs ++ [v]).length ≤ hs.length + 1; simp
      room := by show (hs ++ [v]).length ≤ m₂.sp; simp; omega }
    exact hdone.lands hM

/-- Where a jump gets on, the address after it is a 32-bit integer. -/
theorem At.near (h : H.At (.op .js :: rest) s hs hp fp ra tm out) (hsuits : H.Suits s hs hp fp (.op .js) rest) :
    H.place rest ≤ Text.maxInt32 ∨ ∀ c, H.Reached c := by
  have hplace := place_cons h.1 rfl
  by_cases hlt : H.place (.op .js :: rest) < Text.maxInt32
  · exact .inl (by omega)
  · obtain ⟨n, hr⟩ := h.2
    exact .inr fun _ => hr.stranded ⟨rest, h.1, rfl, Nat.le_of_not_lt hlt, hsuits⟩

/-- Jumps to where the top of the stack says, keeping the return address. -/
theorem At.js (h : H.At (.op .js :: rest) (.ofNat (H.place after) :: s) hs hp fp ra tm out)
    (hsuits : H.Suits (.ofNat (H.place after) :: s) hs hp fp (.op .js) rest) (ha : after <:+ H.code)
    (h0 : 0 < after.size) (hnear : H.place after ≤ Text.maxInt32 ∨ ∀ c, H.Reached c) :
    H.At after s hs hp fp (.ofNat (H.place rest)) tm out := by
  rcases hnear with hto | hall
  case inr => exact ⟨ha, 0, hall _⟩
  rcases h.near hsuits with hback | hall
  case inr => exact ⟨ha, 0, hall _⟩
  refine h.exec (fun _ => rfl) (by simp) hsuits ha (List.suffix_refl _) fun M n m hM hm => ?_
  obtain ⟨m₁, hp₁, hm₁⟩ := hm.pop (H.place (.op .js :: rest))
  have hlt := place_lt ha h0
  have hint : (Int32.ofNat (H.place after)).toInt = H.place after := Int32.toInt_ofNat_of_le hto
  have hle : 0 ≤ Int32.ofNat (H.place after) := by
    rw [Int32.le_iff_toInt_le, hint]
    exact Int.natCast_nonneg _
  have hplace := place_cons h.1 rfl
  have hin : 0 ≤ Int32.ofNat (H.place after) ∧ (Int32.ofNat (H.place after)).toInt.toNat < (H.instrsFor M).size ∧
      H.place (.op .js :: rest) < Text.maxInt32 := ⟨hle, by rw [hint, size_instrsFor]; simpa, by omega⟩
  show Machine.Lands _ ((Machine.pop _ >>= fun address => _) m) _
  rw [Machine.bind_ok hp₁, Cell.ofNat, Cell.const]
  rw [if_pos hin, hint]
  have hdone : Machine.Shows M { m₁ with ra := Int32.ofNat m₁.ip, ip := H.place after }
      ⟨H.place after, s, hs, hp, fp, .ofNat (H.place rest), tm, out, n⟩ :=
    { hm₁ with ip := rfl, ra := congrArg Int32.ofNat hm₁.ip }
  exact hdone.lands hM

theorem At.fetch {o : Op} {r : Machine → Int32} (h : H.At (.op o :: rest) s hs hp fp ra tm out) (ho : o ≠ .halt)
    (hsuits : H.Suits s hs hp fp (.op o) rest)
    (hf : ∀ length ip m, Machine.operate length ip o m = Machine.push ip (r m) m)
    (hr : ∀ (M ip n : Nat) (m : Machine), m.Shows M ⟨ip, s, hs, hp, fp, ra, tm, out, n⟩ → r m = v.word M) :
    H.At rest (v :: s) hs hp fp ra tm out :=
  h.next (fun _ => rfl) (by simpa using ho) hsuits fun M n m hM hm => by
    show Machine.Lands _ (Machine.operate (H.instrsFor M).size _ o m) _
    rw [hf, hr M _ n m hm]
    exact hm.push hM _ v

theorem At.lra (h : H.At (.op .lra :: rest) s hs hp fp ra tm out) : H.At rest (ra :: s) hs hp fp ra tm out :=
  h.fetch (by decide) trivial (fun _ _ _ => rfl) fun _ _ _ _ hm => hm.ra

theorem At.ltm (h : H.At (.op .ltm :: rest) s hs hp fp ra tm out) : H.At rest (tm :: s) hs hp fp ra tm out :=
  h.fetch (by decide) trivial (fun _ _ _ => rfl) fun _ _ _ _ hm => hm.tm

theorem At.lfp (h : H.At (.op .lfp :: rest) s hs hs.length fp ra tm out)
    (ht : H.Tethered s hs fp (.op .lfp :: rest)) : H.At rest (fp :: s) hs hs.length fp ra tm out :=
  h.fetch (by decide) ⟨rfl, ht⟩ (fun _ _ _ => rfl) fun _ _ _ _ hm => hm.fp

theorem At.lhp (h : H.At (.op .lhp :: rest) s hs hp fp ra tm out) :
    H.At rest (.ofNat hp :: s) hs hp fp ra tm out :=
  h.fetch (by decide) trivial (fun _ _ _ => rfl) fun _ _ _ _ hm => hm.hp

/-- An instruction that pops a value and changes registers only. -/
theorem At.store {o : Op} {g : Int32 → Machine → Machine} {hp' : Nat} {fp' ra' tm' : Cell}
    (h : H.At (.op o :: rest) (v :: s) hs hp fp ra tm out) (ho : o ≠ .halt)
    (hsuits : H.Suits (v :: s) hs hp fp (.op o) rest)
    (hf : ∀ length ip, Machine.operate length ip o = Machine.pop ip >>= fun v => modify (g v))
    (hg : ∀ (M ip n : Nat) (m : Machine), m.Shows M ⟨ip, s, hs, hp, fp, ra, tm, out, n⟩ →
      (g (v.word M) m).Shows M ⟨ip, s, hs, hp', fp', ra', tm', out, n⟩) : H.At rest s hs hp' fp' ra' tm' out :=
  h.next (fun _ => rfl) (by simpa using ho) hsuits fun M n m hM hm => by
    obtain ⟨m₁, hp₁, hm₁⟩ := hm.pop (H.place (.op o :: rest))
    show Machine.Lands _ (Machine.operate (H.instrsFor M).size _ o m) _
    rw [hf, Machine.bind_ok hp₁]
    exact (hg M _ n m₁ hm₁).lands hM

theorem At.sra (h : H.At (.op .sra :: rest) (v :: s) hs hp fp ra tm out) : H.At rest s hs hp fp v tm out :=
  h.store (by decide) trivial (fun _ _ => rfl) fun _ _ _ _ hm => { hm with ra := rfl }

theorem At.stm (h : H.At (.op .stm :: rest) (v :: s) hs hp fp ra tm out) : H.At rest s hs hp fp ra v out :=
  h.store (by decide) trivial (fun _ _ => rfl) fun _ _ _ _ hm => { hm with tm := rfl }

theorem At.sfp (h : H.At (.op .sfp :: rest) (v :: s) hs hp fp ra tm out) : H.At rest s hs hp v ra tm out :=
  h.store (by decide) trivial (fun _ _ => rfl) fun _ _ _ _ hm => { hm with fp := rfl }

theorem At.shp (h : H.At (.op .shp :: rest) (.ofNat (hs ++ [v]).length :: s) (hs ++ [v]) hs.length fp ra tm out) :
    H.At rest s (hs ++ [v]) (hs ++ [v]).length fp ra tm out :=
  h.store (by decide) ⟨s, by rw [List.length_append, List.length_singleton]⟩ (fun _ _ => rfl) fun _ _ _ _ hm =>
    { hm with hp := rfl, end_le := Nat.le_refl _, le_end := Nat.le_succ _ }

/-- The frame begins where the stack ends. -/
theorem At.cfp (h : H.At (.op .cfp :: rest) s hs hp fp ra tm out) :
    H.At rest s hs hp (.fromEnd s.length) ra tm out :=
  h.next (fun _ => rfl) (by simp) trivial fun M n m hM hm => by
    have hsp : m.sp + s.length = M := hm.sp
    have hfp : Int32.ofNat m.sp = Int32.ofInt (M - s.length) := by
      rw [← Int32.ofInt_eq_ofNat]
      congr 1
      omega
    have hdone : Machine.Shows M { m with fp := Int32.ofNat m.sp }
        ⟨H.place rest, s, hs, hp, .fromEnd s.length, ra, tm, out, n⟩ := { hm with fp := hfp }
    exact hdone.lands hM

theorem At.print (h : H.At (.op .print :: rest) (.const x :: s) hs hp fp ra tm out) :
    H.At rest (.const x :: s) hs hp fp ra tm (x :: out) :=
  h.exec (fun _ => rfl) (by simp) trivial (suffix_of_cons h.1) (List.suffix_cons _ _) fun M n m hM hm => by
    have htop : m.top = some x := hm.stack 0 (.const x) rfl
    have hp : m.top :: m.printed = (x :: out).map some := by rw [htop, hm.printed]; rfl
    have hdone : Machine.Shows M { m with printed := m.top :: m.printed }
        ⟨H.place rest, .const x :: s, hs, _, fp, ra, tm, x :: out, n⟩ := { hm with printed := hp }
    exact hdone.lands hM

theorem At.goto (h : H.At (.branch .always l :: rest) s hs hp fp ra tm out) (hl : .define l :: after <:+ rest) :
    H.At after s hs hp fp ra tm out := by
  have hmem : .define l ∈ rest := hl.subset List.mem_cons_self
  replace hl := hl.trans (suffix_of_cons h.1)
  exact h.exec (fun _ => rfl) (by simp) hmem (suffix_of_cons hl) (List.suffix_refl _) fun M n m hM hm => by
    have hdone : Machine.Shows M { m with ip := H.code.address l }
        ⟨H.place after, s, hs, hp, fp, ra, tm, out, n⟩ := { hm with ip := address_eq hl }
    exact hdone.lands hM

theorem At.compare {br : Branch} {holds : Int32 → Int32 → Bool}
    (h : H.At (.branch br l :: rest) (.const y :: .const x :: s) hs hp fp ra tm out)
    (hl : .define l :: after <:+ rest)
    (hf : ∀ length ip target,
      Machine.execute length ip (.branch br target) = Machine.compareGoto ip target holds) :
    H.At (if holds x y then after else rest) s hs hp fp ra tm out := by
  have hmem : .define l ∈ rest := hl.subset List.mem_cons_self
  replace hl := hl.trans (suffix_of_cons h.1)
  refine h.exec (fun _ => rfl) (by simp) hmem ?_ (List.suffix_refl _) fun M n m hM hm => ?_
  · split
    · exact suffix_of_cons hl
    · exact suffix_of_cons h.1
  · obtain ⟨m₁, hp₁, hm₁⟩ := hm.pop (H.place (.branch br l :: rest))
    obtain ⟨m₂, hp₂, hm₂⟩ := hm₁.pop (H.place (.branch br l :: rest))
    rw [hf, Machine.compareGoto, Machine.bind_ok hp₁, Machine.bind_ok hp₂]
    change Machine.Lands M ((if holds x y then Machine.goto (H.code.address l) else pure ()) m₂) _
    cases holds x y with
    | true =>
      have hdone : Machine.Shows M { m₂ with ip := H.code.address l }
          ⟨H.place after, s, hs, hp, fp, ra, tm, out, n⟩ := { hm₂ with ip := address_eq hl }
      exact hdone.lands hM
    | false => exact hm₂.lands hM

theorem At.ifEqual (h : H.At (.branch .ifEqual l :: rest) (.const y :: .const x :: s) hs hp fp ra tm out)
    (hl : .define l :: after <:+ rest) : H.At (if x == y then after else rest) s hs hp fp ra tm out :=
  h.compare hl fun _ _ _ => rfl

/-! ## Memory -/

theorem getElem?_of_isPrefix {α : Type} {l l' : List α} {i : Nat} {a : α} (h : l <+: l') (hi : l[i]? = some a) :
    l'[i]? = some a := by
  obtain ⟨more, rfl⟩ := h
  rw [List.getElem?_append_left (List.getElem?_eq_some_iff.1 hi).1, hi]

theorem Sees.later {s' hs' : List Cell} (h : Sees s hs a v) (hst : s <:+ s') (hh : hs <+: hs') :
    Sees s' hs' a v := by
  rcases h with ⟨i, hi, ha⟩ | ⟨above, below, rfl, ha⟩
  · exact .inl ⟨i, getElem?_of_isPrefix hh hi, ha⟩
  · obtain ⟨more, rfl⟩ := hst
    exact .inr ⟨more ++ above, below, by rw [List.append_assoc], ha⟩

/-- What is seen does not lie between the heap and the stack. -/
theorem Sees.held {M : Nat} {m : Machine} {c : Config} (h : Sees c.stack c.heap a v) (hm : m.Shows M c) :
    ∃ i, a.word M = Int32.ofNat i ∧ m.memory.get? i = some (v.word M) ∧ (i < c.heap.length ∨ m.sp ≤ i) := by
  rcases h with ⟨i, hi, rfl⟩ | ⟨above, below, hs, rfl⟩
  · exact ⟨i, rfl, hm.heap i v hi, .inl (List.getElem?_eq_some_iff.1 hi).1⟩
  · have hsp := hm.sp
    rw [hs, List.length_append, List.length_cons] at hsp
    refine ⟨m.sp + above.length, ?_, hm.stack _ _ (by simp [hs]), .inr (Nat.le_add_right _ _)⟩
    show Int32.ofInt (M - (below.length + 1)) = Int32.ofNat (m.sp + above.length)
    rw [← Int32.ofInt_eq_ofNat]
    congr 1
    omega

theorem Sees.get {M : Nat} {m : Machine} {c : Config} (h : Sees c.stack c.heap a v) (hm : m.Shows M c) :
    ∃ i, a.word M = Int32.ofNat i ∧ i < M ∧ m.memory.get? i = some (v.word M) := by
  obtain ⟨i, ha, hget, -⟩ := h.held hm
  exact ⟨i, ha, hm.cells ▸ Memory.lt_of_get? hget, hget⟩

theorem At.lw (h : H.At (.op .lw :: rest) (a :: s) hs hp fp ra tm out) (ha : Sees s hs a v) :
    H.At rest (v :: s) hs hp fp ra tm out :=
  h.next (fun _ => rfl) (by simp) trivial fun M n m hM hm => by
    obtain ⟨m₁, hp₁, hm₁⟩ := hm.pop (H.place (.op .lw :: rest))
    obtain ⟨i, hi, hlt, hget⟩ := ha.get (c := ⟨_, s, hs, hp, fp, ra, tm, out, n⟩) hm₁
    show Machine.Lands _ ((Machine.pop _ >>= fun address => Machine.cell _ address >>= fun a => _) m) _
    rw [Machine.bind_ok hp₁, hi, Machine.bind_ok (hm₁.cell hM _ hlt)]
    show Machine.Lands _ (Machine.push _ ((m₁.memory.get? i).getD 0) m₁) _
    rw [hget]
    exact hm₁.push hM _ v

/-- The word of `null` is no address. -/
theorem At.loadNull (h : H.At (.op .lw :: rest) (.const (-1) :: s) hs hp fp ra tm out) :
    H.Faulted (.invalidAddress (-1) (H.place (.op .lw :: rest))) out := by
  obtain ⟨n, hr⟩ := h.2
  refine hr.fault (fun M => instrs_place h.1 rfl) (by simp) ⟨_, rest, h.1, rfl, rfl, trivial⟩ fun M m hM hm => ?_
  obtain ⟨m₁, hp₁, hm₁⟩ := hm.pop (H.place (.op .lw :: rest))
  refine ⟨m₁, ?_, hm₁.printed⟩
  show (Machine.pop _ >>= fun address => Machine.cell _ address >>= fun a => _) m = _
  rw [Machine.bind_ok hp₁]
  rfl

end

end Host
end FoolLang
