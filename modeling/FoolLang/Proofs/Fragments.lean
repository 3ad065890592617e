import FoolLang.Code.Program
import FoolLang.Proofs.Lines
/-!
# Fragments — what the recurring pieces of generated code do

Loading along links, allocating, choosing between outcomes, entering and leaving a routine.  Between the fragments the
heap ends where its list of cells does.
-/
namespace FoolLang

open Assembly

namespace Host

variable {H : Host} {rest after : Code} {l : Label} {hp : Nat} {s hs : List Cell} {out : List Int32}
  {fp ra tm v a b : Cell} {x y : Int32}

theorem Hops.later {s' hs' : List Cell} (hst : s <:+ s') (hh : hs <+: hs') : ∀ {n : Nat} {a : Cell},
    Hops s hs n a b → Hops s' hs' n a b
  | 0, _, h => h
  | _ + 1, _, ⟨c, hc, h⟩ => ⟨c, hc.later hst hh, Hops.later hst hh h⟩

theorem At.hops : ∀ {n : Nat} {a : Cell}, H.At (List.replicate n (.op .lw) ++ rest) (a :: s) hs hp fp ra tm out →
    Hops s hs n a b → H.At rest (b :: s) hs hp fp ra tm out
  | 0, _, h, rfl => h
  | n + 1, _, h, ⟨_, hc, hb⟩ => by
    rw [List.replicate_succ, List.cons_append] at h
    exact (h.lw hc).hops hb

theorem At.loadAt {offset : Int} (h : H.At (Line.loadAt offset ++ rest) (a :: s) hs hp fp ra tm out)
    (hn : FitsWord offset) (hv : Sees s hs (a + .ofInt offset) v) : H.At rest (v :: s) hs hp fp ra tm out :=
  (h.push hn).add.lw hv

theorem Tethered.later {s' hs' : List Cell} (h : H.Tethered s hs fp rest) (hst : s <:+ s') (hh : hs <+: hs') :
    H.Tethered s' hs' fp rest := fun n hn =>
  let ⟨a, ha, hhops⟩ := h n hn
  ⟨a, Nat.lt_of_lt_of_le ha hh.length_le, hhops.later hst hh⟩

theorem At.frame {u : Use} {e : Entry} (h : H.At (Line.frame u e ++ rest) s hs hs.length fp ra tm out)
    (ht : H.Tethered s hs fp (Line.frame u e ++ rest)) (hb : Hops s hs (u.level - e.level) fp b) :
    H.At rest (b :: s) hs hs.length fp ra tm out := At.hops (h.lfp ht) hb

theorem At.shareLink (h : H.At (Line.shareLink ++ rest) (a :: s) hs hp fp ra tm out) :
    H.At rest (a :: a :: s) hs hp fp ra a out := h.stm.ltm.ltm

theorem At.load {u : Use} {e : Entry} (hu : u.entry = some e) (h : H.At (u.load ++ rest) s hs hs.length fp ra tm out)
    (ht : H.Tethered s hs fp (u.load ++ rest)) (hn : FitsWord e.offset) (hb : Hops s hs (u.level - e.level) fp b)
    (hv : Sees s hs (b + .ofInt e.offset) v) : H.At rest (v :: s) hs hs.length fp ra tm out := by
  rw [Use.load, hu, List.append_assoc] at h ht
  exact (h.frame ht hb).loadAt hn hv

/-! ## Allocation -/

/-- The next end of the heap is on the stack before the heap is told of it. -/
theorem At.heapEnd (h : H.At (Line.bumpHeap ++ rest) s (hs ++ [v]) hs.length fp ra tm out) :
    H.At (.op .shp :: rest) (.ofNat (hs ++ [v]).length :: s) (hs ++ [v]) hs.length fp ra tm out := by
  have h' := At.add (h.lhp.push (by decide))
  have hlen : Cell.ofNat hs.length + Cell.ofInt 1 = .ofNat (hs ++ [v]).length := by
    rw [List.length_append, List.length_singleton, Cell.ofNat_add]
    rfl
  rwa [hlen] at h'

theorem At.bumpHeap (h : H.At (Line.bumpHeap ++ rest) s (hs ++ [v]) hs.length fp ra tm out) :
    H.At rest s (hs ++ [v]) (hs ++ [v]).length fp ra tm out := h.heapEnd.shp

theorem At.allocate (h : H.At (Line.allocate ++ rest) (v :: s) hs hs.length fp ra tm out) :
    H.At rest s (hs ++ [v]) (hs ++ [v]).length fp ra tm out := At.bumpHeap h.lhp.sw

theorem At.allocateAll : ∀ (vs : List Cell) {hs : List Cell},
    H.At ((List.replicate vs.length Line.allocate).flatten ++ rest) (vs ++ s) hs hs.length fp ra tm out →
    H.At rest s (hs ++ vs) (hs ++ vs).length fp ra tm out
  | [], hs, h => by rwa [List.append_nil]
  | v :: vs, hs, h => by
    rw [List.length_cons, List.replicate_succ, List.flatten_cons, List.append_assoc] at h
    have := At.allocateAll vs (At.allocate h)
    rwa [List.append_assoc] at this

/-- Builds an object: its fields go to the heap from the top of the stack, and the dispatch pointer after them.  One
line is left then, and the heap ends at the address of the object. -/
theorem At.instantiate {e : Entry} {vs : List Cell} {n : Nat}
    (h : H.At (FoolLang.instantiate Code.mark n (some e) ++ rest) (vs ++ s) hs hs.length fp ra tm out)
    (hn : vs.length = n) (hoffset : FitsWord e.offset) (hv : Sees s hs (.fromEnd 0 + .ofInt e.offset) v) :
    H.At (.op .shp :: rest) (.ofNat (hs ++ vs ++ [v]).length :: .ofNat (hs ++ vs).length :: s) (hs ++ vs ++ [v])
      (hs ++ vs).length fp ra tm out := by
  subst hn
  rw [FoolLang.instantiate] at h
  simp only [List.append_assoc, List.cons_append] at h
  have h' := (At.allocateAll vs h).pushMemory.loadAt hoffset (hv.later (List.suffix_refl _) (List.prefix_append _ _))
  exact At.heapEnd h'.lhp.sw.lhp

theorem At.tableCode (table : List Label)
    (h : H.At (Class.tableCode table ++ rest) s hs hs.length fp ra tm out) :
    H.At rest (Cell.ofNat hs.length :: s) (hs ++ table.map fun l => Cell.ofNat (H.code.address l))
      (hs ++ table.map fun l => Cell.ofNat (H.code.address l)).length fp ra tm out := by
  suffices hall : ∀ (table : List Label) (hs s : List Cell),
      H.At ((table.flatMap fun l => .pushLabel l :: Line.allocate) ++ rest) s hs hs.length fp ra tm out →
      H.At rest s (hs ++ table.map fun l => Cell.ofNat (H.code.address l))
        (hs ++ table.map fun l => Cell.ofNat (H.code.address l)).length fp ra tm out from hall table hs _ h.lhp
  intro table
  induction table with
  | nil =>
    intro hs s h
    rwa [List.map_nil, List.append_nil]
  | cons l table ih =>
    intro hs s h
    rw [List.flatMap_cons, List.append_assoc, List.cons_append] at h
    have := ih _ _ (At.allocate h.pushLabel)
    rwa [List.append_assoc] at this

/-! ## Branches -/

/-- Goes one way if the top of the stack is a certain number and the other way if not. -/
theorem At.test {n : Int} (h : H.At (.push n :: .branch .ifEqual l :: rest) (.const x :: s) hs hp fp ra tm out)
    (hn : FitsWord n) (hl : .define l :: after <:+ rest) :
    H.At (if x == Int32.ofInt n then after else rest) s hs hp fp ra tm out := At.ifEqual (h.push hn) hl

/-- The two ends of an expression that branches: `x` if the branch to label `n` was not taken, `y` if it was. -/
def outcomes (x y : Int) (n : Nat) (rest : Code) : Code :=
  .push x :: .branch .always (.branch (n + 1)) :: .define (.branch n) :: .push y :: .define (.branch (n + 1)) :: rest

theorem At.untaken {x y : Int} {n : Nat} (h : H.At (outcomes x y n rest) s hs hp fp ra tm out) (hx : FitsWord x) :
    H.At rest (.ofInt x :: s) hs hp fp ra tm out :=
  (h.push hx).goto (List.suffix_append [Line.define (.branch n), .push y] _)

theorem At.taken {y : Int} {n : Nat} (h : H.At (.push y :: .define (.branch (n + 1)) :: rest) s hs hp fp ra tm out)
    (hy : FitsWord y) : H.At rest (.ofInt y :: s) hs hp fp ra tm out := (h.push hy).define

theorem taken_suffix (x y : Int) (n : Nat) (rest : Code) :
    .define (.branch n) :: .push y :: .define (.branch (n + 1)) :: rest <:+ outcomes x y n rest :=
  List.suffix_append [Line.push x, .branch .always (.branch (n + 1))] _

theorem At.truthOf {br : Branch} {holds : Int32 → Int32 → Bool} {n : Nat}
    (h : H.At (Line.truthOf br n ++ rest) (.const y :: .const x :: s) hs hp fp ra tm out)
    (hf : ∀ length ip target,
      Machine.execute length ip (.branch br target) = Machine.compareGoto ip target holds) :
    H.At rest (.const (if holds x y then 1 else 0) :: s) hs hp fp ra tm out := by
  change H.At (.branch br (.branch n) :: outcomes 0 1 n rest) (.const y :: .const x :: s) hs hp fp ra tm out at h
  have hc := h.compare (taken_suffix 0 1 n rest) hf
  cases hxy : holds x y with
  | true =>
    rw [hxy, if_pos rfl] at hc
    exact hc.taken (by decide)
  | false =>
    rw [hxy, if_neg Bool.false_ne_true] at hc
    exact hc.untaken (by decide)

/-! ## Routines -/

theorem At.pops : ∀ {vs : List Cell}, H.At (List.replicate vs.length (.op .pop) ++ rest) (vs ++ s) hs hp fp ra tm out →
    H.At rest s hs hp fp ra tm out
  | [], h => h
  | _ :: vs, h => by
    rw [List.length_cons, List.replicate_succ, List.cons_append] at h
    exact At.pops h.pop

/-- Leaves a routine with the value on top: the frame is dropped, and the frame of the caller comes back. -/
theorem At.leave {locals args : List Cell} {n m : Nat}
    (h : H.At (.op .stm :: (List.replicate n (.op .pop) ++ .op .sra :: .op .pop :: (List.replicate m (.op .pop) ++
      .op .sfp :: .op .ltm :: .op .lra :: .op .js :: rest)))
      (v :: (locals ++ Cell.ofNat (H.place after) :: a :: (args ++ b :: s))) hs hp fp ra tm out)
    (hn : locals.length = n) (hm : args.length = m) (ha : after <:+ H.code) (h0 : 0 < after.size)
    (hnear : H.place after ≤ Text.maxInt32 ∨ ∀ c, H.Reached c) : ∃ ra', H.At after (v :: s) hs hp b ra' v out := by
  subst hn hm
  have h' := (At.pops (At.pop (At.sra (At.pops h.stm)))).sfp.ltm
  exact ⟨_, h'.lra.js (.inl h'.suffix) ha h0 hnear⟩

end Host
end FoolLang
