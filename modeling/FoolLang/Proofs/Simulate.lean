import FoolLang.Proofs.Outcomes
/-!
# Simulate — the code of an expression does what evaluating it does

One lemma for each kind of expression tells that its code leaves the value on the stack, given that the code of its
parts does and that calls do what the code of routines does; the induction puts them together (`simulates`).
-/
namespace FoolLang

open Assembly

namespace Host

variable (H : Host) (P : Plan)

/-- The code of an expression leaves the value that evaluation comes to on the stack, and the value has the type of
the expression. -/
def Simulates (call : Call) (d : Nat) (e : Expr) : Prop :=
  ∀ ⦃env : Env⦄ ⦃ctx : Context⦄ ⦃w : World⦄ ⦃s hs : List Cell⦄ ⦃fp ra tm : Cell⦄ ⦃k : Nat⦄ ⦃rest : Code⦄ ⦃t : Ty⦄,
    H.Ready P env ctx w s hs fp → (e.resolve env).type P.types = .ok t → (∀ n ∈ (e.resolve env).nodes, n ∈ P.nodes) →
    H.memory ≤ d + s.length → H.Stands env ctx rest →
    H.At ((e.resolve env).code Code.mark k ++ rest) s hs hs.length fp ra tm w.printed →
    H.Outcome P (e.eval P.classes call ctx w) fun v w' =>
      v.Has P.types.hierarchy w' t ∧ H.Arrives P w hs fp rest (v.cell :: s) w'

variable {H P} {call : Call} {d : Nat} {env : Env} {ctx : Context} {w : World} {s hs : List Cell} {fp ra tm : Cell}
  {rest : Code} {a b c e : Expr} {l : Nat}

theorem Ready.push (h : H.Ready P env ctx w s hs fp) (v : Cell) : H.Ready P env ctx w (v :: s) hs fp :=
  h.later (List.suffix_cons _ _) (List.prefix_refl _) (.refl _) h.heap

theorem Ready.arrives (h : H.Ready P env ctx w s hs fp) {s' : List Cell}
    (hat : H.At rest s' hs hs.length fp ra tm w.printed) : H.Arrives P w hs fp rest s' w :=
  ⟨hs, ra, tm, List.prefix_refl _, .refl _, h.heap, hat⟩

/-- What follows the value of an expression. -/
theorem Simulates.bind (he : H.Simulates P call d e) (hr : H.Ready P env ctx w s hs fp) {k : Nat} {t : Ty}
    (ht : (e.resolve env).type P.types = .ok t) (hn : ∀ n ∈ (e.resolve env).nodes, n ∈ P.nodes)
    (hd : H.memory ≤ d + s.length) (h0 : H.Stands env ctx rest)
    (hat : H.At ((e.resolve env).code Code.mark k ++ rest) s hs hs.length fp ra tm w.printed) {β : Type}
    {f : Value → Eval β} {R : β → World → Prop}
    (hf : ∀ v w' hs' ra' tm', v.Has P.types.hierarchy w' t → w.Grows w' → hs <+: hs' →
      H.Ready P env ctx w' s hs' fp → H.At rest (v.cell :: s) hs' hs'.length fp ra' tm' w'.printed →
      H.Outcome P (f v w') R) : H.Outcome P ((e.eval P.classes call ctx >>= f) w) R := by
  refine (he hr ht hn hd h0 hat).bind fun v w' hv => ?_
  obtain ⟨hty, hs', ra', tm', hh, hw, hrep, hat'⟩ := hv
  exact hf v w' hs' ra' tm' hty hw hh (hr.later (List.suffix_refl _) hh hw hrep) hat'

theorem Simulates.operands (ha : H.Simulates P call d a) (hb : H.Simulates P call d b)
    (hr : H.Ready P env ctx w s hs fp) {k k' : Nat} {ta tb : Ty} (hta : (a.resolve env).type P.types = .ok ta)
    (htb : (b.resolve env).type P.types = .ok tb) (hna : ∀ n ∈ (a.resolve env).nodes, n ∈ P.nodes)
    (hnb : ∀ n ∈ (b.resolve env).nodes, n ∈ P.nodes) (hd : H.memory ≤ d + s.length) (h0 : H.Stands env ctx rest)
    (hat : H.At ((a.resolve env).code Code.mark k ++ ((b.resolve env).code Code.mark k' ++ rest)) s hs hs.length fp ra
      tm w.printed) {β : Type} {f : Value → Value → Eval β} {R : β → World → Prop}
    (hf : ∀ u v w' hs' ra' tm', u.Has P.types.hierarchy w' ta → v.Has P.types.hierarchy w' tb → w.Grows w' →
      hs <+: hs' → H.Ready P env ctx w' s hs' fp →
      H.At rest (v.cell :: u.cell :: s) hs' hs'.length fp ra' tm' w'.printed → H.Outcome P (f u v w') R) :
    H.Outcome P ((a.eval P.classes call ctx >>= fun u => b.eval P.classes call ctx >>= f u) w) R := by
  have hfirst := h0.expr (suffix_of_append hat.suffix)
  refine ha.bind hr hta hna hd hfirst hat fun u w₁ hs₁ _ _ hu hw₁ hh₁ hr₁ hat₁ => ?_
  have hd₁ : H.memory ≤ d + (u.cell :: s).length := by rw [List.length_cons]; omega
  refine hb.bind (hr₁.push _) htb hnb hd₁ h0 hat₁ fun v w₂ hs₂ _ _ hv hw₂ hh₂ hr₂ hat₂ => ?_
  refine hf u v w₂ hs₂ _ _ (hu.grows hw₂) hv (hw₁.trans hw₂) (hh₁.trans hh₂) ?_ hat₂
  exact hr₁.later (List.suffix_refl _) hh₂ hw₂ hr₂.heap

/-! ## Literals, operators and branches -/

theorem simulates_int (n : Int32) : H.Simulates P call d (.int l n) := by
  intro env ctx w s hs fp ra tm k rest t hr ht hn hd h0 hat
  cases ht
  have hpush : H.At (.push n.toInt :: rest) s hs hs.length fp ra tm w.printed := hat
  have h := hpush.push (fitsWord_toInt n)
  rw [Cell.ofInt, Int32.ofInt_toInt] at h
  exact ⟨trivial, hr.arrives h⟩

theorem simulates_bool (v : Bool) : H.Simulates P call d (.bool l v) := by
  intro env ctx w s hs fp ra tm k rest t hr ht hn hd h0 hat
  cases ht
  have hpush : H.At (.push (if v then 1 else 0) :: rest) s hs hs.length fp ra tm w.printed := hat
  have hcell : Cell.ofInt (if v then 1 else 0) = (Value.bool v).cell := by cases v <;> rfl
  have h := hpush.push (by cases v <;> decide)
  rw [hcell] at h
  exact ⟨trivial, hr.arrives h⟩

theorem simulates_null : H.Simulates P call d (.null l) := by
  intro env ctx w s hs fp ra tm k rest t hr ht hn hd h0 hat
  cases ht
  have hpush : H.At (.push (-1) :: rest) s hs hs.length fp ra tm w.printed := hat
  exact ⟨trivial, hr.arrives (hpush.push (by decide))⟩

theorem type_binary {k : Classes} {op : BinOp} {t : Ty} (h : (Expr.binary l op a b).type k = .ok t) :
    ∃ ta tb, a.type k = .ok ta ∧ b.type k = .ok tb ∧ k.binary op ta tb l = .ok t := by
  rw [Expr.type] at h
  obtain ⟨ta, ha, h⟩ := exists_of_bind_ok h
  obtain ⟨tb, hb, h⟩ := exists_of_bind_ok h
  exact ⟨ta, tb, ha, hb, h⟩

theorem binary_both {k : Classes} {op : BinOp} {ta tb t ty : Ty}
    (hop : k.binary op ta tb l = if k.hierarchy.isSubtype ta ty && k.hierarchy.isSubtype tb ty then .ok ty
      else .error (.wrongOperands op l)) (h : k.binary op ta tb l = .ok t) :
    ta.Refines k.hierarchy ty ∧ tb.Refines k.hierarchy ty ∧ t = ty := by
  rw [hop] at h
  split at h
  · rename_i hs
    rw [Bool.and_eq_true] at hs
    cases h
    exact ⟨Hierarchy.isSubtype_refines hs.1, Hierarchy.isSubtype_refines hs.2, rfl⟩
  · cases h

/-- An arithmetic operator that always has a value. -/
theorem Simulates.arith (ha : H.Simulates P call d a) (hb : H.Simulates P call d b) {op : BinOp} {o : Op}
    {g : Int32 → Int32 → Int32}
    (hop : ∀ (k : Classes) (ta tb : Ty), k.binary op ta tb l =
      if k.hierarchy.isSubtype ta .int && k.hierarchy.isSubtype tb .int then .ok .int else .error (.wrongOperands op l))
    (hcode : ∀ (x y : Expr) (memory k : Nat),
      (Expr.binary l op x y).code memory k = x.code memory k ++ y.code memory (k + x.labels) ++ [.op o])
    (heval : ∀ ctx, (Expr.binary l op a b).eval P.classes call ctx =
      (a.eval P.classes call ctx >>= fun u => b.eval P.classes call ctx >>= fun v => op.apply u v))
    (happly : ∀ u v, op.apply u v = (u.number >>= fun m => v.number >>= fun n => pure (.int (g m n))))
    (hstep : ∀ {rest : Code} {x y : Int32} {s hs : List Cell} {out : List Int32} {fp ra tm : Cell},
      H.At (.op o :: rest) (.const y :: .const x :: s) hs hs.length fp ra tm out →
      H.At rest (.const (g x y) :: s) hs hs.length fp ra tm out) :
    H.Simulates P call d (.binary l op a b) := by
  intro env ctx w s hs fp ra tm k rest t hr ht hn hd h0 hat
  obtain ⟨ta, tb, hta, htb, htop⟩ := type_binary ht
  obtain ⟨hia, hib, rfl⟩ := binary_both (hop _ _ _) htop
  obtain ⟨-, hna, hnb⟩ := Expr.forall_nodes_binary.1 hn
  rw [Expr.resolve, hcode] at hat
  simp only [List.append_assoc] at hat
  rw [heval]
  have hlast := h0.cons (suffix_of_append (suffix_of_append hat.suffix)) rfl
  refine ha.operands hb hr hta htb hna hnb hd hlast hat fun u v w₁ hs₁ _ _ hu hv hw hh hr₁ hat₁ => ?_
  rw [happly, Eval.bind_ok ((hia _ _ hu).int w₁), Eval.bind_ok ((hib _ _ hv).int w₁)]
  exact ⟨trivial, (hr₁.arrives (hstep hat₁)).before hw hh⟩

theorem Simulates.div (ha : H.Simulates P call d a) (hb : H.Simulates P call d b) :
    H.Simulates P call d (.binary l .div a b) := by
  intro env ctx w s hs fp ra tm k rest t hr ht hn hd h0 hat
  obtain ⟨ta, tb, hta, htb, htop⟩ := type_binary ht
  obtain ⟨hia, hib, rfl⟩ := binary_both rfl htop
  obtain ⟨-, hna, hnb⟩ := Expr.forall_nodes_binary.1 hn
  rw [Expr.resolve, Expr.code] at hat
  simp only [List.append_assoc] at hat
  change H.Outcome P ((a.eval P.classes call ctx >>= fun u => b.eval P.classes call ctx >>= BinOp.div.apply u) w) _
  have hlast := h0.cons (suffix_of_append (suffix_of_append hat.suffix)) rfl
  refine ha.operands hb hr hta htb hna hnb hd hlast hat fun u v w₁ hs₁ _ _ hu hv hw hh hr₁ hat₁ => ?_
  rw [BinOp.apply, Eval.bind_ok ((hia _ _ hu).int w₁), Eval.bind_ok ((hib _ _ hv).int w₁)]
  by_cases hz : v.word = 0
  · rw [if_pos hz]
    rw [show v.cell = .const 0 from congrArg Cell.const hz] at hat₁
    exact ⟨_, hat₁.divByZero⟩
  · rw [if_neg hz]
    exact ⟨trivial, (hr₁.arrives (hat₁.div hz)).before hw hh⟩

theorem binary_compare {k : Classes} {op : BinOp} {ta tb t : Ty} (h : k.binary op ta tb l = .ok t)
    (hop : op = .equal ∨ op = .lessEqual ∨ op = .greaterEqual) : t = .bool := by
  have hsub : (if k.hierarchy.isSubtype ta tb || k.hierarchy.isSubtype tb ta then
      .ok .bool else .error (.wrongOperands op l) : Except TypeError Ty) = .ok t := by
    rcases hop with rfl | rfl | rfl <;> exact h
  split at hsub <;> cases hsub
  rfl

/-- A comparison, of the operands in the order in which they are evaluated. -/
theorem Simulates.comparison (ha : H.Simulates P call d a) (hb : H.Simulates P call d b) {br : Branch}
    {holds : Int32 → Int32 → Bool} {k k' n : Nat} {ta tb : Ty} (hr : H.Ready P env ctx w s hs fp)
    (hta : (a.resolve env).type P.types = .ok ta) (htb : (b.resolve env).type P.types = .ok tb)
    (hna : ∀ n ∈ (a.resolve env).nodes, n ∈ P.nodes) (hnb : ∀ n ∈ (b.resolve env).nodes, n ∈ P.nodes)
    (hd : H.memory ≤ d + s.length) (h0 : H.Stands env ctx rest)
    (hf : ∀ length ip target,
      Machine.execute length ip (.branch br target) = Machine.compareGoto ip target holds)
    (hat : H.At ((a.resolve env).code Code.mark k ++
      ((b.resolve env).code Code.mark k' ++ (Line.truthOf br n ++ rest))) s hs hs.length fp ra tm w.printed) :
    H.Outcome P ((a.eval P.classes call ctx >>= fun u => b.eval P.classes call ctx >>= fun v =>
      pure (Value.bool (holds u.word v.word))) w) fun v w' =>
        v.Has P.types.hierarchy w' .bool ∧ H.Arrives P w hs fp rest (v.cell :: s) w' := by
  have hlast := h0.append (suffix_of_append (suffix_of_append hat.suffix)) (inner_truthOf br n).routine?_eq_none
  refine ha.operands hb hr hta htb hna hnb hd hlast hat fun u v w₁ hs₁ _ _ _ _ hw hh hr₁ hat₁ => ?_
  exact ⟨trivial, (hr₁.arrives (hat₁.truthOf hf)).before hw hh⟩

/-- A comparison whose left operand comes first. -/
theorem Simulates.compared (ha : H.Simulates P call d a) (hb : H.Simulates P call d b) {op : BinOp} {br : Branch}
    {holds : Int32 → Int32 → Bool} (hop : op = .equal ∨ op = .lessEqual)
    (hcode : ∀ (x y : Expr) (memory k : Nat), (Expr.binary l op x y).code memory k =
      x.code memory (k + 2) ++ y.code memory (k + 2 + x.labels) ++ Line.truthOf br k)
    (heval : ∀ ctx, (Expr.binary l op a b).eval P.classes call ctx =
      (a.eval P.classes call ctx >>= fun u => b.eval P.classes call ctx >>= fun v =>
        pure (Value.bool (holds u.word v.word))))
    (hf : ∀ length ip target,
      Machine.execute length ip (.branch br target) = Machine.compareGoto ip target holds) :
    H.Simulates P call d (.binary l op a b) := by
  intro env ctx w s hs fp ra tm k rest t hr ht hn hd h0 hat
  obtain ⟨ta, tb, hta, htb, htop⟩ := type_binary ht
  obtain rfl := binary_compare htop (by rcases hop with rfl | rfl <;> simp)
  obtain ⟨-, hna, hnb⟩ := Expr.forall_nodes_binary.1 hn
  rw [Expr.resolve, hcode] at hat
  simp only [List.append_assoc] at hat
  rw [heval]
  exact ha.comparison hb hr hta htb hna hnb hd h0 hf hat

/-- The right operand of `>=` comes first. -/
theorem Simulates.greaterEqual (ha : H.Simulates P call d a) (hb : H.Simulates P call d b) :
    H.Simulates P call d (.binary l .greaterEqual a b) := by
  intro env ctx w s hs fp ra tm k rest t hr ht hn hd h0 hat
  obtain ⟨ta, tb, hta, htb, htop⟩ := type_binary ht
  obtain rfl := binary_compare htop (by simp)
  obtain ⟨-, hna, hnb⟩ := Expr.forall_nodes_binary.1 hn
  rw [Expr.resolve, Expr.code] at hat
  simp only [List.append_assoc] at hat
  rw [Expr.eval]
  exact hb.comparison ha hr htb hta hnb hna hd h0 (fun _ _ _ => rfl) hat

/-- The number a truth value is pushed as. -/
def truthNumber (x : Bool) : Int := if x then 1 else 0

theorem ofInt_truthNumber (x : Bool) : Int32.ofInt (truthNumber x) = (Value.bool x).word := by cases x <;> rfl

theorem cell_truthNumber (x : Bool) : Cell.ofInt (truthNumber x) = (Value.bool x).cell :=
  congrArg Cell.const (ofInt_truthNumber x)

theorem fitsWord_truthNumber (x : Bool) : FitsWord (truthNumber x) := by cases x <;> decide

/-- The truth on top of the stack decides which way a test goes. -/
theorem At.testTruth {after : Code} {lab : Label} {out : List Int32} {x y : Bool}
    (h : H.At (.push (truthNumber y) :: .branch .ifEqual lab :: rest) ((Value.bool x).cell :: s) hs hs.length fp ra tm
      out) (hl : .define lab :: after <:+ rest) :
    H.At (if x = y then after else rest) s hs hs.length fp ra tm out := by
  have h' := At.test h (fitsWord_truthNumber y) hl
  rw [ofInt_truthNumber] at h'
  cases x <;> cases y <;> exact h'

/-- An operator whose left operand alone decides where it has one of the truth values. -/
theorem Simulates.shortCircuit (ha : H.Simulates P call d a) (hb : H.Simulates P call d b) {op : BinOp} (x : Bool)
    (hop : ∀ (k : Classes) (ta tb : Ty), k.binary op ta tb l =
      if k.hierarchy.isSubtype ta .bool && k.hierarchy.isSubtype tb .bool then .ok .bool
      else .error (.wrongOperands op l))
    (hcode : ∀ (y z : Expr) (memory k : Nat), (Expr.binary l op y z).code memory k =
      y.code memory (k + 2) ++ [.push (truthNumber x), .branch .ifEqual (.branch k)] ++
        z.code memory (k + 2 + y.labels) ++ [.push (truthNumber x), .branch .ifEqual (.branch k)] ++
        outcomes (truthNumber !x) (truthNumber x) k [])
    (heval : ∀ ctx, (Expr.binary l op a b).eval P.classes call ctx =
      (a.eval P.classes call ctx >>= fun u => u.truth >>= fun y => if y = x then pure (.bool x) else
        b.eval P.classes call ctx >>= fun v => v.truth >>= fun z => pure (.bool z))) :
    H.Simulates P call d (.binary l op a b) := by
  intro env ctx w s hs fp ra tm k rest t hr ht hn hd h0 hat
  obtain ⟨ta, tb, hta, htb, htop⟩ := type_binary ht
  obtain ⟨hia, hib, rfl⟩ := binary_both (hop _ _ _) htop
  obtain ⟨-, hna, hnb⟩ := Expr.forall_nodes_binary.1 hn
  rw [Expr.resolve, hcode] at hat
  simp only [List.append_assoc, List.cons_append, List.nil_append] at hat
  change H.At (_ ++ .push (truthNumber x) :: .branch .ifEqual (.branch k) ::
    (_ ++ .push (truthNumber x) :: .branch .ifEqual (.branch k) ::
      outcomes (truthNumber !x) (truthNumber x) k rest)) s hs hs.length fp ra tm w.printed at hat
  have hends := taken_suffix (truthNumber !x) (truthNumber x) k rest
  have hfirst := suffix_of_append hat.suffix
  have hsecond := suffix_of_cons (suffix_of_cons hfirst)
  have hlast := h0.append (c := .push (truthNumber x) :: .branch .ifEqual (.branch k) ::
    outcomes (truthNumber !x) (truthNumber x) k []) (suffix_of_append hsecond) (by simp [outcomes, Line.routine?])
  have hmore := ((hlast.expr hsecond).cons (suffix_of_cons hfirst) rfl).cons hfirst rfl
  rw [heval]
  refine ha.bind hr hta hna hd hmore hat fun u w₁ hs₁ _ _ hu hw₁ hh₁ hr₁ hat₁ => ?_
  obtain ⟨y, rfl⟩ := (hia _ _ hu).bool
  rw [Eval.bind_ok (show (Value.bool y).truth w₁ = .ok y w₁ from rfl)]
  have htest₁ := hat₁.testTruth (hends.trans ((List.suffix_append [_, _] _).trans (List.suffix_append _ _)))
  by_cases hy : y = x
  · rw [if_pos hy] at htest₁ ⊢
    have h := htest₁.taken (fitsWord_truthNumber x)
    rw [cell_truthNumber] at h
    exact ⟨trivial, (hr₁.arrives h).before hw₁ hh₁⟩
  · rw [if_neg hy] at htest₁ ⊢
    refine hb.bind hr₁ htb hnb hd hlast htest₁ fun v w₂ hs₂ ra₂ tm₂ hv hw₂ hh₂ hr₂ hat₂ => ?_
    obtain ⟨z, rfl⟩ := (hib _ _ hv).bool
    rw [Eval.bind_ok (show (Value.bool z).truth w₂ = .ok z w₂ from rfl)]
    have htest₂ := hat₂.testTruth hends
    have hend : H.At rest ((Value.bool z).cell :: s) hs₂ hs₂.length fp ra₂ tm₂ w₂.printed := by
      by_cases hz : z = x
      · rw [if_pos hz] at htest₂
        have h := htest₂.taken (fitsWord_truthNumber x)
        rwa [cell_truthNumber, ← hz] at h
      · rw [if_neg hz] at htest₂
        have h := htest₂.untaken (fitsWord_truthNumber _)
        rwa [cell_truthNumber, ← Bool.eq_not_of_ne hz] at h
    exact ⟨trivial, (hr₂.arrives hend).before (hw₁.trans hw₂) (hh₁.trans hh₂)⟩

theorem type_not {k : Classes} {t : Ty} (h : (Expr.not l a).type k = .ok t) :
    ∃ ta, a.type k = .ok ta ∧ ta.Refines k.hierarchy .bool ∧ t = .bool := by
  rw [Expr.type] at h
  obtain ⟨ta, ha, h⟩ := exists_of_bind_ok h
  split at h
  · rename_i hs
    cases h
    exact ⟨ta, ha, Hierarchy.isSubtype_refines hs, rfl⟩
  · cases h

theorem Simulates.not (ha : H.Simulates P call d a) : H.Simulates P call d (.not l a) := by
  intro env ctx w s hs fp ra tm k rest t hr ht hn hd h0 hat
  obtain ⟨ta, hta, hia, rfl⟩ := type_not ht
  obtain ⟨-, hna⟩ := Expr.forall_nodes_not.1 hn
  rw [Expr.resolve, Expr.code] at hat
  simp only [List.append_assoc, List.cons_append, List.nil_append] at hat
  change H.At (_ ++ .push (truthNumber true) :: .branch .ifEqual (.branch k) ::
    outcomes (truthNumber true) (truthNumber false) k rest) s hs hs.length fp ra tm w.printed at hat
  have hlast := h0.append (c := .push (truthNumber true) :: .branch .ifEqual (.branch k) ::
    outcomes (truthNumber true) (truthNumber false) k []) (suffix_of_append hat.suffix)
    (by simp [outcomes, Line.routine?])
  rw [Expr.eval]
  refine ha.bind hr hta hna hd hlast hat fun u w₁ hs₁ ra₁ tm₁ hu hw₁ hh₁ hr₁ hat₁ => ?_
  obtain ⟨y, rfl⟩ := (hia _ _ hu).bool
  rw [Eval.bind_ok (show (Value.bool y).truth w₁ = .ok y w₁ from rfl)]
  have htest := hat₁.testTruth (taken_suffix _ _ k rest)
  have hend : H.At rest ((Value.bool !y).cell :: s) hs₁ hs₁.length fp ra₁ tm₁ w₁.printed := by
    cases y with
    | true =>
      rw [if_pos rfl] at htest
      exact htest.taken (by decide)
    | false =>
      rw [if_neg Bool.false_ne_true] at htest
      exact htest.untaken (by decide)
  exact ⟨trivial, (hr₁.arrives hend).before hw₁ hh₁⟩

theorem type_cond {k : Classes} {t : Ty} (h : (Expr.cond l c a b).type k = .ok t) :
    ∃ tc ta tb, c.type k = .ok tc ∧ a.type k = .ok ta ∧ b.type k = .ok tb ∧ tc.Refines k.hierarchy .bool ∧
      ta.Refines k.hierarchy t ∧ tb.Refines k.hierarchy t := by
  rw [Expr.type] at h
  obtain ⟨tc, hc, h⟩ := exists_of_bind_ok h
  split at h
  · rename_i hs
    obtain ⟨ta, ha, h⟩ := exists_of_bind_ok h
    obtain ⟨tb, hb, h⟩ := exists_of_bind_ok h
    split at h
    · rename_i t' hl
      cases h
      obtain ⟨hta, htb⟩ := Hierarchy.leastCommon_refines hl
      exact ⟨tc, ta, tb, hc, ha, hb, Hierarchy.isSubtype_refines hs, hta, htb⟩
    · cases h
  · cases h

theorem Simulates.cond (hc : H.Simulates P call d c) (ha : H.Simulates P call d a) (hb : H.Simulates P call d b) :
    H.Simulates P call d (.cond l c a b) := by
  intro env ctx w s hs fp ra tm k rest t hr ht hn hd h0 hat
  obtain ⟨tc, ta, tb, htc, hta, htb, hic, hia, hib⟩ := type_cond ht
  obtain ⟨-, hnc, hna, hnb⟩ := Expr.forall_nodes_cond.1 hn
  rw [Expr.resolve, Expr.code] at hat
  simp only [List.append_assoc, List.cons_append, List.nil_append] at hat
  have htest := suffix_of_append hat.suffix
  have helse := suffix_of_cons (suffix_of_cons htest)
  have hjump := suffix_of_append helse
  have hthen := suffix_of_cons (suffix_of_cons hjump)
  have hend := h0.cons (suffix_of_append hthen) rfl
  have hover := ((hend.expr hthen).cons (suffix_of_cons hjump) rfl).cons hjump rfl
  have hmore := ((hover.expr helse).cons (suffix_of_cons htest) rfl).cons htest rfl
  rw [Expr.eval]
  refine hc.bind hr htc hnc hd hmore hat fun u w₁ hs₁ _ _ hu hw₁ hh₁ hr₁ hat₁ => ?_
  obtain ⟨y, rfl⟩ := (hic _ _ hu).bool
  rw [Eval.bind_ok (show (Value.bool y).truth w₁ = .ok y w₁ from rfl)]
  have htest := At.testTruth (y := true) hat₁ ((List.suffix_cons _ _).trans (List.suffix_append _ _))
  cases y with
  | true =>
    rw [if_pos rfl] at htest ⊢
    refine (ha hr₁ hta hna hd hend htest).mono fun v w₂ hv => ?_
    obtain ⟨hty, hs₂, ra₂, tm₂, hh₂, hw₂, hrep, hat₂⟩ := hv
    exact ⟨hia _ _ hty, hs₂, ra₂, tm₂, hh₁.trans hh₂, hw₁.trans hw₂, hrep, hat₂.define⟩
  | false =>
    rw [if_neg Bool.false_ne_true] at htest ⊢
    refine (hb hr₁ htb hnb hd hover htest).mono fun v w₂ hv => ?_
    obtain ⟨hty, hs₂, ra₂, tm₂, hh₂, hw₂, hrep, hat₂⟩ := hv
    exact ⟨hib _ _ hty, hs₂, ra₂, tm₂, hh₁.trans hh₂, hw₁.trans hw₂, hrep,
      hat₂.goto ((List.suffix_append _ _).trans (List.suffix_cons _ _))⟩

theorem Simulates.print (ha : H.Simulates P call d a) : H.Simulates P call d (.print l a) := by
  intro env ctx w s hs fp ra tm k rest t hr ht hn hd h0 hat
  obtain ⟨-, hna⟩ := Expr.forall_nodes_print.1 hn
  rw [Expr.resolve, Expr.type] at ht
  rw [Expr.resolve, Expr.code] at hat
  simp only [List.append_assoc, List.cons_append, List.nil_append] at hat
  rw [Expr.eval]
  have hlast := h0.cons (suffix_of_append hat.suffix) rfl
  refine ha.bind hr ht hna hd hlast hat fun u w₁ hs₁ ra₁ tm₁ hu hw₁ hh₁ hr₁ hat₁ => ?_
  have hrep : H.Represents P (w₁.print u.word) hs₁ :=
    ⟨hr₁.heap.free, hr₁.heap.fresh, fun a o ho => (hr₁.heap.objects a o ho).later (List.prefix_refl _) (.refl _),
      hr₁.heap.tables⟩
  exact ⟨hu, hs₁, ra₁, tm₁, hh₁, hw₁, hrep, hat₁.print⟩

/-! ## Names, calls and objects -/

theorem simulates_id (hP : P.Sound H) (u : Use) : H.Simulates P call d (.id l u) := by
  intro env ctx w s hs fp ra tm k rest t hr ht hn hd h0 hat
  rw [Expr.resolve, Expr.type] at ht
  obtain ⟨e, he, rfl, hv⟩ := Use.valueType_ok ht
  obtain ⟨hx, huse⟩ := Env.use_entry he
  obtain ⟨v, base, hread, hhops, hsees, hty⟩ := hr.read hP hx hv
  have hfits : FitsWord e.offset :=
    hP.fits _ (hn _ (List.mem_singleton_self _)) e (by simp only [Expr.entries, he]; exact List.mem_singleton_self e)
  have hties := hr.tethered (h0.expr hat.suffix)
  rw [Expr.resolve, Expr.code, huse] at hat hties
  rw [Expr.eval, hread]
  exact ⟨hty, hr.arrives (At.load rfl hat hties hfits hhops hsees)⟩

theorem length_resolveArgs (env : Env) (es : List Expr) : (resolveArgs env es).length = es.length := by
  induction es with
  | nil => rfl
  | cons e es ih => rw [resolveArgs, List.length_cons, List.length_cons, ih]

theorem checkArgs_cons {k : Classes} {wrong : Nat → TypeError} {n : Nat} {es : List Expr} {p : Ty} {ps : List Ty}
    (h : checkArgs k wrong n (e :: es) (p :: ps) = .ok ()) :
    ∃ t, e.type k = .ok t ∧ t.Refines k.hierarchy p ∧ checkArgs k wrong (n + 1) es ps = .ok () := by
  rw [checkArgs] at h
  obtain ⟨t, ht, h⟩ := exists_of_bind_ok h
  split at h
  · exact ⟨t, ht, Hierarchy.isSubtype_refines ‹_›, h⟩
  · cases h

/-- **Arguments, last to first**: the first one is on top in the end. -/
theorem simulatesBack {es : List Expr} (hes : ∀ e ∈ es, H.Simulates P call d e) : ∀ {w : World} {s hs : List Cell}
    {ra tm : Cell} {k : Nat} {rest : Code} {ps : List Ty} {wrong : Nat → TypeError} {n : Nat},
    H.Ready P env ctx w s hs fp → checkArgs P.types wrong n (resolveArgs env es) ps = .ok () → es.length = ps.length →
    (∀ n ∈ argNodes (resolveArgs env es), n ∈ P.nodes) → H.memory ≤ d + s.length → H.Stands env ctx rest →
    H.At (codeBack Code.mark k (resolveArgs env es) ++ rest) s hs hs.length fp ra tm w.printed →
    H.Outcome P (evalBack P.classes call ctx es w) fun vs w' =>
      List.Forall₂ (fun v t => v.Has P.types.hierarchy w' t) vs ps ∧
        H.Arrives P w hs fp rest (vs.map Value.cell ++ s) w' := by
  induction es with
  | nil =>
    intro w s hs ra tm k rest ps wrong n hr _ hlen _ _ _ hat
    obtain rfl := List.length_eq_zero_iff.1 hlen.symm
    exact ⟨.nil, hr.arrives hat⟩
  | cons e es ih =>
    intro w s hs ra tm k rest ps wrong n hr ht hlen hn hd h0 hat
    cases ps with
    | nil => cases hlen
    | cons p ps =>
      obtain ⟨t, hte, href, htes⟩ := checkArgs_cons ht
      obtain ⟨hne, hnes⟩ := forall_argNodes_cons.1 hn
      obtain ⟨he, hes⟩ := List.forall_mem_cons.1 hes
      rw [resolveArgs, codeBack, List.append_assoc] at hat
      rw [evalBack]
      have hlast := h0.expr (suffix_of_append hat.suffix)
      refine (ih hes hr htes (Nat.succ.inj hlen) hnes hd hlast hat).bind fun vs w₁ hv => ?_
      obtain ⟨hvs, hs₁, ra₁, tm₁, hh₁, hw₁, hrep₁, hat₁⟩ := hv
      have hr₁ := hr.later (List.suffix_append (vs.map Value.cell) s) hh₁ hw₁ hrep₁
      have hd₁ : H.memory ≤ d + (vs.map Value.cell ++ s).length := by rw [List.length_append]; omega
      refine he.bind hr₁ hte hne hd₁ h0 hat₁ fun v w₂ hs₂ _ _ hv hw₂ hh₂ hr₂ hat₂ => ?_
      exact ⟨.cons (href _ _ hv) (hvs.imp fun _ _ h => h.grows hw₂), (hr₂.arrives hat₂).before (hw₁.trans hw₂)
        (hh₁.trans hh₂)⟩

/-- **Arguments, first to last**: the last one is on top in the end. -/
theorem simulatesAll {es : List Expr} (hes : ∀ e ∈ es, H.Simulates P call d e) : ∀ {w : World} {s hs : List Cell}
    {ra tm : Cell} {k : Nat} {rest : Code} {ps : List Ty} {wrong : Nat → TypeError} {n : Nat},
    H.Ready P env ctx w s hs fp → checkArgs P.types wrong n (resolveArgs env es) ps = .ok () → es.length = ps.length →
    (∀ n ∈ argNodes (resolveArgs env es), n ∈ P.nodes) → H.memory ≤ d + s.length → H.Stands env ctx rest →
    H.At (codeAll Code.mark k (resolveArgs env es) ++ rest) s hs hs.length fp ra tm w.printed →
    H.Outcome P (evalAll P.classes call ctx es w) fun vs w' =>
      List.Forall₂ (fun v t => v.Has P.types.hierarchy w' t) vs ps ∧
        H.Arrives P w hs fp rest ((vs.map Value.cell).reverse ++ s) w' := by
  induction es with
  | nil =>
    intro w s hs ra tm k rest ps wrong n hr _ hlen _ _ _ hat
    obtain rfl := List.length_eq_zero_iff.1 hlen.symm
    exact ⟨.nil, hr.arrives hat⟩
  | cons e es ih =>
    intro w s hs ra tm k rest ps wrong n hr ht hlen hn hd h0 hat
    cases ps with
    | nil => cases hlen
    | cons p ps =>
      obtain ⟨t, hte, href, htes⟩ := checkArgs_cons ht
      obtain ⟨hne, hnes⟩ := forall_argNodes_cons.1 hn
      obtain ⟨he, hes⟩ := List.forall_mem_cons.1 hes
      rw [resolveArgs, codeAll, List.append_assoc] at hat
      rw [evalAll]
      have hmore := h0.append (suffix_of_append hat.suffix) (inner_codeAll Code.mark _ _).routine?_eq_none
      refine he.bind hr hte hne hd hmore hat fun v w₁ hs₁ _ _ hv hw₁ hh₁ hr₁ hat₁ => ?_
      have hd₁ : H.memory ≤ d + (v.cell :: s).length := by rw [List.length_cons]; omega
      refine (ih hes (hr₁.push _) htes (Nat.succ.inj hlen) hnes hd₁ h0 hat₁).bind fun vs w₂ h => ?_
      obtain ⟨hvs, hs₂, ra₂, tm₂, hh₂, hw₂, hrep₂, hat₂⟩ := h
      have hstack : (vs.map Value.cell).reverse ++ v.cell :: s = ((v :: vs).map Value.cell).reverse ++ s := by simp
      rw [hstack] at hat₂
      exact ⟨.cons (href _ _ (hv.grows hw₂)) hvs, hs₂, ra₂, tm₂, hh₁.trans hh₂, hw₁.trans hw₂, hrep₂, hat₂⟩

theorem apply_ok {k : Classes} {es : List Expr} {ps : List Ty} {wrong : Nat → TypeError} {other : TypeError}
    {ret t : Ty} (h : (if es.length ≠ ps.length then .error other else
      (do checkArgs k wrong 1 es ps; return ret) : Except TypeError Ty) = .ok t) :
    es.length = ps.length ∧ checkArgs k wrong 1 es ps = .ok () ∧ ret = t := by
  by_cases hlen : es.length = ps.length
  · rw [if_neg (not_not.2 hlen)] at h
    obtain ⟨_, hargs, h⟩ := exists_of_bind_ok h
    cases h
    exact ⟨hlen, hargs, rfl⟩
  · rw [if_pos hlen] at h
    cases h

theorem Invokes.simulates_call (hP : P.Sound H) (hcall : H.Invokes P call d) (u : Use) {es : List Expr}
    (hes : ∀ e ∈ es, H.Simulates P call d e) : H.Simulates P call d (.call l u es) := by
  intro env ctx w s hs fp ra tm k rest t hr ht hn hd h0 hat
  obtain ⟨hself, hnes⟩ := Expr.forall_nodes_call.1 hn
  have hfits : ∀ e ∈ (env.use u.id).entry, FitsWord e.offset := fun e he =>
    hP.fits _ hself e (Option.mem_toList.2 he)
  rw [Expr.resolve, Expr.type] at ht
  obtain ⟨sig, hsig, ht⟩ := exists_of_bind_ok ht
  obtain ⟨hlen, hargs, rfl⟩ := apply_ok ht
  rw [length_resolveArgs] at hlen
  have hcode := hat.suffix
  have hties := hr.tethered (h0.expr hcode)
  rw [Expr.resolve, Expr.code, List.cons_append, List.cons_append, List.append_assoc] at hat hties
  have hmore := h0.append (suffix_of_append (suffix_of_cons hat.suffix))
    (Code.Inner.of_flat (flat_invoke (env.use u.id))).routine?_eq_none
  have hd₀ : H.memory ≤ d + (fp :: s).length := by rw [List.length_cons]; omega
  rw [Expr.eval]
  refine (simulatesBack hes (hr.push fp) hargs hlen hnes hd₀ hmore (hat.lfp hties)).bind fun vs w₁ hv => ?_
  obtain ⟨hvs, hs₁, ra₁, tm₁, hh₁, hw₁, hrep₁, hat₁⟩ := hv
  have hr₁ := hr.later (List.suffix_refl s) hh₁ hw₁ hrep₁
  have hsite : H.code.CallsWith Code.mark rest vs.length :=
    ⟨_, _, k, rfl, by rw [length_resolveArgs, hlen, hvs.length_eq],
      fun n hnode => ⟨hP.complete n (hn n hnode), hP.fits n (hn n hnode)⟩, hcode⟩
  exact (hr₁.invoke hP hcall hsig hfits hvs hd h0 hsite hat₁).mono fun v w₂ hv => ⟨hv.1, hv.2.before hw₁ hh₁⟩

/-- **A call of a method of a named object.**  The object is loaded after the arguments; where it is `null`, the
machine faults when it loads the dispatch pointer. -/
theorem Invokes.simulates_send (hP : P.Sound H) (hcall : H.Invokes P call d) (u : Use) (m : Ident) (me : Option Entry)
    {es : List Expr} (hes : ∀ e ∈ es, H.Simulates P call d e) : H.Simulates P call d (.send l u m me es) := by
  intro env ctx w s hs fp ra tm k rest t hr ht hn hd h0 hat
  rw [Expr.resolve] at ht hn hat
  cases htarget : env.sendTarget u.id m with
  | error _ =>
    rw [htarget] at ht
    cases ht
  | ok target =>
    obtain ⟨o, me⟩ := target
    simp only [htarget] at ht hn hat
    obtain ⟨hx, c, T, hoc, hT, hTm, hme⟩ := Env.sendTarget_ok htarget
    obtain ⟨hself, hnes⟩ := Expr.forall_nodes_send.1 hn
    have hfits : FitsWord o.offset ∧ FitsWord me.offset :=
      List.forall_mem_cons.1 (hP.fits _ hself) |>.imp_right fun h => h me (List.mem_singleton_self me)
    rw [Expr.type] at ht
    obtain ⟨sig, hsig, ht⟩ := exists_of_bind_ok ht
    obtain ⟨hlen, hargs, rfl⟩ := apply_ok ht
    have hmsig : me.ty = .method sig := by
      unfold methodSignature at hsig
      split at hsig <;> cases hsig
      rename_i h
      cases h
      rfl
    rw [length_resolveArgs] at hlen
    have hplace := hat
    have hties := hr.tethered (h0.expr hat.suffix)
    simp only [Expr.code, Use.dispatch, List.append_assoc, List.cons_append, List.nil_append] at hat hties
    have hlater := suffix_of_append (suffix_of_cons hat.suffix)
    have hmore := h0.append (c := Use.dispatch ⟨u.id, env.level, some o⟩ (some me)) (by
      simpa only [Use.dispatch, List.append_assoc, List.cons_append, List.nil_append] using hlater)
      (Code.Inner.of_flat (flat_dispatch _ _)).routine?_eq_none
    simp only [Use.dispatch, List.append_assoc, List.cons_append, List.nil_append] at hmore
    have hd₀ : H.memory ≤ d + (fp :: s).length := by rw [List.length_cons]; omega
    rw [Expr.eval]
    refine (simulatesBack hes (hr.push fp) hargs hlen hnes hd₀ hmore (hat.lfp hties)).bind fun vs w₁ hv => ?_
    obtain ⟨hvs, hs₁, ra₁, tm₁, hh₁, hw₁, hrep₁, hat₁⟩ := hv
    have hr₁ := hr.later (List.suffix_refl s) hh₁ hw₁ hrep₁
    obtain ⟨v, base, hread, hhops, hsees, hty⟩ := hr₁.read hP hx (by rw [hoc]; rfl)
    rw [Eval.bind_ok hread]
    have hst : s <:+ vs.map Value.cell ++ fp :: s := (List.suffix_cons _ _).trans (List.suffix_append _ _)
    have hframe := (hr₁.tethered hmore).later hst (List.prefix_refl _)
    have hload := At.shareLink ((At.frame hat₁ hframe (hhops.later hst (List.prefix_refl _))).loadAt hfits.1
      (hsees.later hst (List.prefix_refl _)))
    rw [hoc] at hty
    rcases hty.ref with rfl | ⟨a, ob, rfl, hob, hbelow⟩
    -- the load that faults must be traced back to this node, wherever its code stands in the program
    · have hnode : ∀ n ∈ [Expr.send l ⟨u.id, env.level, some o⟩ m (some me) (resolveArgs env es)],
          n ∈ P.nodes ∧ ∀ x ∈ n.nodes, x.OffsetsFit := by
        rintro _ (_ | ⟨_, ⟨⟩⟩)
        exact ⟨hself, fun x hx => hP.fits x (hn x hx)⟩
      refine ⟨_, fun M hM => ((DispatchLoad.fill hM (fun n h => (hnode n h).2) ?_).mono fun n h => (hnode n h).1),
        hload.loadNull⟩
      obtain ⟨pre, hpre⟩ := hplace.suffix
      refine ⟨pre, l, ⟨u.id, env.level, some o⟩, o, m, me, resolveArgs env es, k, rest, List.mem_singleton_self _, rfl,
        ?_, ?_⟩
      · rw [← hpre, List.append_assoc]
      · refine place_of_suffix ?_
        rw [← hpre]
        simp only [Expr.code, Use.dispatch, List.append_assoc, List.cons_append, List.nil_append]
    · have hknown := (hr₁.heap.objects a ob hob).known
      have hmeth := hP.method c T m me ob.cls (hr.knows c T hT).1 hTm hme hknown hbelow
      have hsite : H.code.CallsWith Code.mark rest vs.length :=
        ⟨_, _, k, rfl, by rw [length_resolveArgs, hlen, hvs.length_eq],
          fun n hnode => ⟨hP.complete n (hn n hnode), hP.fits n (hn n hnode)⟩, hplace.suffix⟩
      have hrun := hcall.method hob hmeth hmsig hfits.2 hvs hr₁.heap hr₁.ground hd h0.more hsite hload
      exact hrun.mono fun v w₂ hv => ⟨hv.1, hv.2.before hw₁ hh₁⟩

/-- A new object lies past the objects there are. -/
theorem Represents.grows_create (hr : H.Represents P w hs) (cls : Ident) (fields : List (Ident × Value)) :
    w.Grows (w.create cls fields) := by
  intro a o ho
  have hlt := hr.fresh a o ho
  have hne : a ≠ w.free + fields.length := by omega
  rw [World.create, lookup_cons_of_ne hne]
  exact ho

/-- Where the words of the fields and the dispatch pointer are at the end of the heap, an object lies there. -/
theorem Placed.create {cls : Ident} {vs : List Value} {lay : Layout} {base : Nat}
    (hknown : (P.tables.lookup cls).isSome) (hbase : P.bases.lookup cls = some base)
    (hlay : P.types.layouts.lookup cls = some lay) (hlen : vs.length = (fieldNames P.classes cls).length)
    (hvs : List.Forall₂ (fun v t => v.Has P.types.hierarchy w t) vs lay.fields)
    (hborn : H.Born P cls (hs.length + vs.length)) :
    H.Placed P w (hs ++ (vs.map Value.cell).reverse ++ [Cell.ofNat base]) (hs.length + vs.length)
      ⟨cls, (fieldNames P.classes cls).zip vs⟩ := by
  refine ⟨hknown, ⟨base, hbase, ?_⟩, ⟨vs, rfl, hlen, fun i v hi => ?_, fun l hl => ?_⟩, hborn⟩
  · have hlast : (hs ++ (vs.map Value.cell).reverse).length = hs.length + vs.length := by simp
    rw [← hlast, List.getElem?_concat_length]
  · have hlt : i < vs.length := (List.getElem?_eq_some_iff.1 hi).1
    refine ⟨by omega, ?_⟩
    -- the fields are pushed last to first, so the cell below the pointer is the first of them
    rw [List.getElem?_append_left (by simp; omega), List.getElem?_append_right (by omega),
      List.getElem?_reverse (by simp; omega), List.length_map, List.getElem?_map]
    have hi' : vs.length - 1 - (hs.length + vs.length - (i + 1) - hs.length) = i := by omega
    rw [hi', hi]
    rfl
  · obtain rfl : lay = l := Option.some.inj (hlay.symm.trans hl)
    exact hvs

/-- **A new object is represented** once its fields and its dispatch pointer are at the end of the heap. -/
theorem Represents.create (hr : H.Represents P w hs) {cls : Ident} {vs : List Value} {base : Nat}
    (hlen : vs.length = (fieldNames P.classes cls).length)
    (hplaced : H.Placed P w (hs ++ (vs.map Value.cell).reverse ++ [Cell.ofNat base]) (hs.length + vs.length)
      ⟨cls, (fieldNames P.classes cls).zip vs⟩) :
    H.Represents P (w.create cls ((fieldNames P.classes cls).zip vs))
      (hs ++ (vs.map Value.cell).reverse ++ [Cell.ofNat base]) := by
  have hzip : ((fieldNames P.classes cls).zip vs).length = vs.length := by rw [List.length_zip, hlen, Nat.min_self]
  have hfree := hr.free
  have hgrows := hr.grows_create cls ((fieldNames P.classes cls).zip vs)
  have hprefix : hs <+: hs ++ (vs.map Value.cell).reverse ++ [Cell.ofNat base] := by
    rw [List.append_assoc]
    exact List.prefix_append _ _
  have hcases : ∀ a o, (w.create cls ((fieldNames P.classes cls).zip vs)).objects.lookup a = some o →
      (a = hs.length + vs.length ∧ o = ⟨cls, (fieldNames P.classes cls).zip vs⟩) ∨ w.objects.lookup a = some o := by
    intro a o ho
    rw [World.create, hzip, hfree] at ho
    by_cases ha : a = hs.length + vs.length
    · rw [ha, List.lookup_cons_self] at ho
      exact .inl ⟨ha, (Option.some.inj ho).symm⟩
    · rw [lookup_cons_of_ne ha] at ho
      exact .inr ho
  have hnext : (w.create cls ((fieldNames P.classes cls).zip vs)).free = hs.length + vs.length + 1 := by
    rw [World.create, hzip, hfree]
  refine ⟨?_, fun a o ho => ?_, fun a o ho => ?_, fun c table base' htable hbase' j lab hj => ?_⟩
  · rw [hnext, List.length_append, List.length_append, List.length_reverse, List.length_map]
    rfl
  · rcases hcases a o ho with ⟨rfl, -⟩ | hold
    · omega
    · have hlt := hr.fresh a o hold
      omega
  · rcases hcases a o ho with ⟨rfl, rfl⟩ | hold
    · exact hplaced.later (List.prefix_refl _) hgrows
    · exact (hr.objects a o hold).later hprefix hgrows
  · exact (hr.tables c table base' htable hbase' j lab hj).imp_left (getElem?_of_isPrefix hprefix)

theorem simulates_new (hP : P.Sound H) (cls : Ident) (me : Option Entry) {es : List Expr}
    (hes : ∀ e ∈ es, H.Simulates P call d e) : H.Simulates P call d (.new l cls me es) := by
  intro env ctx w s hs fp ra tm k rest t hr ht hn hd h0 hat
  obtain ⟨hself, hnes⟩ := Expr.forall_nodes_new.1 hn
  rw [Expr.resolve, Expr.type] at ht
  obtain ⟨fields, hfields, ht⟩ := exists_of_bind_ok ht
  obtain ⟨hlen, hargs, rfl⟩ := apply_ok ht
  rw [length_resolveArgs] at hlen
  unfold Classes.fieldsOf at hfields
  split at hfields <;> cases hfields
  rename_i e lay he hlay
  obtain ⟨hsome, hglobal⟩ := Env.instantiable_eq he
  obtain ⟨T, hT⟩ := Option.isSome_iff_exists.1 hsome
  obtain ⟨hPT, e', he', hPe⟩ := hr.knows cls T hT
  obtain rfl : e' = e := Option.some.inj (he'.symm.trans hglobal)
  obtain ⟨base, hbase, hsees⟩ := hr.ground cls e' hPe
  obtain ⟨hmem, lay', hlay', hcount⟩ := hP.known cls T hPT
  obtain rfl : lay' = lay := Option.some.inj (hlay'.symm.trans hlay)
  rw [he] at hself
  rw [Expr.resolve, he] at hn hat
  have hcode := hat.suffix
  rw [Expr.code, List.append_assoc] at hat
  rw [Expr.eval]
  have hmore := h0.append (suffix_of_append hat.suffix) (Code.Inner.of_flat (flat_instantiate _ _ _)).routine?_eq_none
  refine (simulatesAll hes hr hargs hlen hnes hd hmore hat).bind fun vs w₁ hv => ?_
  obtain ⟨hvs, hs₁, ra₁, tm₁, hh₁, hw₁, hrep₁, hat₁⟩ := hv
  have hcount' : vs.length = (fieldNames P.classes cls).length := by rw [hvs.length_eq, hcount]
  have hfits : FitsWord e'.offset := hP.fits _ hself e' (List.mem_singleton_self e')
  have hlast := At.instantiate hat₁ (by simp [hvs.length_eq, ← hlen, length_resolveArgs]) hfits
    (hsees.later (List.suffix_refl s) hh₁)
  have hobject := hlast.shp
  have haddress : (hs₁ ++ (vs.map Value.cell).reverse).length = hs₁.length + vs.length := by simp
  rw [haddress] at hobject
  rw [List.length_append, List.length_singleton, haddress] at hlast
  have hborn : H.Born P cls (hs₁.length + vs.length) :=
    ⟨l, _, _, k, rest, s, _, fp, ra₁, tm₁, w₁.printed, hself, fun n hnode => hP.fits n (hn n hnode), hcode, hlast⟩
  have hgrows := hrep₁.grows_create cls ((fieldNames P.classes cls).zip vs)
  have hrep := hrep₁.create hcount'
    (.create (Option.isSome_iff_exists.2 ⟨T, hPT⟩) hbase hlay hcount' hvs hborn)
  have hzip : ((fieldNames P.classes cls).zip vs).length = vs.length := by rw [List.length_zip, hcount', Nat.min_self]
  have hev : instantiateClass P.classes cls vs w₁ =
      .ok (.ref (w₁.free + ((fieldNames P.classes cls).zip vs).length))
        (w₁.create cls ((fieldNames P.classes cls).zip vs)) := by
    unfold instantiateClass
    rw [if_pos hmem]
    rfl
  rw [hev, hzip, hrep₁.free]
  refine ⟨⟨⟨cls, (fieldNames P.classes cls).zip vs⟩, ?_, .refl⟩, ?_⟩
  · rw [World.create, hzip, hrep₁.free, List.lookup_cons, beq_self_eq_true]
  · refine ⟨_, ra₁, tm₁, ?_, hw₁.trans hgrows, hrep, hobject⟩
    rw [List.append_assoc]
    exact hh₁.trans (List.prefix_append _ _)

mutual

/-- **The code of an expression does what evaluating it does**, if calls do what the code of routines does. -/
theorem simulates (hP : P.Sound H) (hcall : H.Invokes P call d) : ∀ e : Expr, H.Simulates P call d e
  | .int _ n => simulates_int n
  | .bool _ v => simulates_bool v
  | .null _ => simulates_null
  | .binary _ .plus a b => (simulates hP hcall a).arith (simulates hP hcall b) (fun _ _ _ => rfl)
      (fun _ _ _ _ => rfl) (fun _ => rfl) (fun _ _ => rfl) At.add
  | .binary _ .minus a b => (simulates hP hcall a).arith (simulates hP hcall b) (fun _ _ _ => rfl)
      (fun _ _ _ _ => rfl) (fun _ => rfl) (fun _ _ => rfl) At.sub
  | .binary _ .times a b => (simulates hP hcall a).arith (simulates hP hcall b) (fun _ _ _ => rfl)
      (fun _ _ _ _ => rfl) (fun _ => rfl) (fun _ _ => rfl) At.mult
  | .binary _ .div a b => (simulates hP hcall a).div (simulates hP hcall b)
  | .binary _ .equal a b => (simulates hP hcall a).compared (simulates hP hcall b) (by simp)
      (fun _ _ _ _ => rfl) (fun _ => rfl) (fun _ _ _ => rfl)
  | .binary _ .lessEqual a b => (simulates hP hcall a).compared (simulates hP hcall b) (by simp)
      (fun _ _ _ _ => rfl) (fun _ => rfl) (fun _ _ _ => rfl)
  | .binary _ .greaterEqual a b => (simulates hP hcall a).greaterEqual (simulates hP hcall b)
  | .binary _ .and a b => (simulates hP hcall a).shortCircuit (simulates hP hcall b) false (fun _ _ _ => rfl)
      (fun _ _ _ _ => rfl) fun ctx => by
        rw [Expr.eval]
        congr 1
        funext u
        congr 1
        funext y
        cases y <;> rfl
  | .binary _ .or a b => (simulates hP hcall a).shortCircuit (simulates hP hcall b) true (fun _ _ _ => rfl)
      (fun _ _ _ _ => rfl) fun ctx => by
        rw [Expr.eval]
  | .not _ a => (simulates hP hcall a).not
  | .cond _ c a b => (simulates hP hcall c).cond (simulates hP hcall a) (simulates hP hcall b)
  | .print _ a => (simulates hP hcall a).print
  | .id _ u => simulates_id hP u
  | .call _ u es => hcall.simulates_call hP u (simulates_args hP hcall es)
  | .send _ u m me es => hcall.simulates_send hP u m me (simulates_args hP hcall es)
  | .new _ cls me es => simulates_new hP cls me (simulates_args hP hcall es)

theorem simulates_args (hP : P.Sound H) (hcall : H.Invokes P call d) : ∀ es : List Expr,
    ∀ e ∈ es, H.Simulates P call d e
  | [] => fun _ he => nomatch he
  | e :: es => List.forall_mem_cons.2 ⟨simulates hP hcall e, simulates_args hP hcall es⟩

end

end Host
end FoolLang
