import FoolLang.Proofs.Frames
/-!
# Outcomes — what evaluation and a machine have in common

An evaluation ends with a value or stops; `Outcome` tells what the machine does then.  Of the classes this needs to
know where a class below another one keeps the fields and methods of the latter (`Plan.Sound`).
-/
namespace FoolLang

open Assembly

/-- An instruction that loads the dispatch pointer for a method call, right after the receiver has been loaded. -/
def DispatchLoad (memory : Nat) (code : Code) (nodes : List Expr) (ip : Nat) : Prop :=
  ∃ pre l u e m me args k post, Expr.send l u m (some me) args ∈ nodes ∧ u.entry = some e ∧
    code = pre ++ (Expr.send l u m (some me) args).code memory k ++ post ∧
    ip = Code.size (pre ++ .op .lfp :: codeBack memory k args ++ Line.frame u e ++ Line.loadAt e.offset
      ++ Line.shareLink)

theorem DispatchLoad.mono {memory ip : Nat} {code : Code} {nodes nodes' : List Expr}
    (h : DispatchLoad memory code nodes ip) (hn : nodes ⊆ nodes') : DispatchLoad memory code nodes' ip := by
  obtain ⟨pre, l, u, e, m, me, args, k, post, hmem, h⟩ := h
  exact ⟨pre, l, u, e, m, me, args, k, post, hn hmem, h⟩

/-- A dispatch pointer is loaded at the same place whatever the size of the memory. -/
theorem DispatchLoad.fill {memory ip : Nat} {template : Code} {nodes : List Expr} (hm : memory ≤ Text.maxInt32)
    (hf : ∀ n ∈ nodes, ∀ x ∈ n.nodes, x.OffsetsFit) (h : DispatchLoad Code.mark template nodes ip) :
    DispatchLoad memory (template.fill memory) nodes ip := by
  obtain ⟨pre, l, u, e, m, me, args, k, post, hmem, he, rfl, rfl⟩ := h
  have hargs := fill_codeBack (k := k) hm (Expr.forall_nodes_send.1 (hf _ hmem)).2
  refine ⟨Code.fill memory pre, l, u, e, m, me, args, k, Code.fill memory post, hmem, he, ?_, ?_⟩
  · rw [Code.fill_append, Code.fill_append, Expr.fill_code hm (hf _ hmem)]
  · simp only [Code.size_append, Code.size_op, Code.size_fill, ← hargs]

namespace Plan

variable (H : Host) (P : Plan)

/-- Objects of class `D` have the field that a name stands for in class `c`. -/
structure HasField (c D x : Ident) (e : Entry) : Prop where
  level : e.level = 1
  named : x ∈ fieldNames P.classes c
  held : ∃ (i : Nat) (l : Layout) (t : Ty), (fieldNames P.classes D)[i]? = some x ∧
    Int32.ofInt e.offset = Int32.ofInt (-(i : Int) - 1) ∧ P.types.layouts.lookup D = some l ∧ l.fields[i]? = some t ∧
    t.Refines P.types.hierarchy e.ty

/-- A method of class `c` has this routine. -/
structure Implements (c : Ident) (d : Method) (f : Nat) : Prop where
  compiled : ∃ env T G, Compiled H P env d.routine d.ret f (some 2) ∧ env.scopes = [T, G] ∧ env.level = 1 ∧
    P.tables.lookup c = some T ∧ G.OfClasses

/-- Objects of class `D` have the method that a name stands for in class `c`. -/
structure HasMethod (c D m : Ident) (e : Entry) : Prop where
  level : e.level = 1
  named : m ∈ methodNames P.classes c
  held : ∃ (j : Nat) (table : List Label) (sig : Signature) (c' : Ident) (d : Method) (f : Nat),
    Int32.ofInt e.offset = Int32.ofNat j ∧ P.slots.lookup D = some table ∧ table[j]? = some (.routine f) ∧
    e.ty = .method sig ∧ findMethod P.classes D m = some (c', d) ∧ P.types.hierarchy.Below D c' ∧
    d.signature.Refines P.types.hierarchy sig ∧ P.Implements H c' d f

/-- What is settled about the classes fits together. -/
structure Sound : Prop where
  fits : ∀ n ∈ P.nodes, n.OffsetsFit
  complete : ∀ n ∈ P.nodes, n.Complete
  known : ∀ c T, P.tables.lookup c = some T → c ∈ P.classes.map Class.id ∧
    ∃ l, P.types.layouts.lookup c = some l ∧ l.fields.length = (fieldNames P.classes c).length
  distinct : ∀ c, (fieldNames P.classes c).Nodup
  field : ∀ c T x e D, P.tables.lookup c = some T → T.lookup x = some e → e.ty.isMethod = false →
    (P.tables.lookup D).isSome → P.types.hierarchy.Below D c → P.HasField c D x e
  method : ∀ c T m e D, P.tables.lookup c = some T → T.lookup m = some e → e.ty.isMethod = true →
    (P.tables.lookup D).isSome → P.types.hierarchy.Below D c → P.HasMethod H c D m e

end Plan

def Ty.isValue : Ty → Bool
  | .int | .bool | .null | .ref _ => true
  | _ => false

theorem Use.valueType_ok {u : Use} {line : Nat} {t : Ty} (h : u.valueType line = .ok t) :
    ∃ e, u.entry = some e ∧ e.ty = t ∧ t.isValue = true := by
  unfold valueType at h
  split at h
  · cases h
  · rename_i e he
    refine ⟨e, he, ?_⟩
    split at h <;> cases h
    refine ⟨rfl, ?_⟩
    cases ht : e.ty <;> simp_all [Ty.isValue]

theorem Use.calleeSignature_ok {u : Use} {line : Nat} {sig : Signature} (h : u.calleeSignature line = .ok sig) :
    ∃ e, u.entry = some e ∧ (e.ty = .function sig ∨ e.ty = .method sig) := by
  unfold calleeSignature at h
  split at h
  · cases h
  · rename_i e he
    refine ⟨e, he, ?_⟩
    split at h <;> cases h
    · exact .inl ‹_›
    · exact .inr ‹_›

theorem Value.Has.not_callable {h : Hierarchy} {w : World} {v : Value} {t : Ty} {sig : Signature} (hv : v.Has h w t) :
    ¬(t = .function sig ∨ t = .method sig) := by
  rintro (rfl | rfl) <;> cases v <;> exact hv

theorem Env.use_entry {env : Env} {x : Ident} {e : Entry} (h : (env.use x).entry = some e) :
    env.lookup x = some e ∧ env.use x = ⟨x, env.level, some e⟩ := by
  unfold use at h ⊢
  cases hx : env.lookup x with
  | none => rw [hx] at h; cases h
  | some e' =>
    rw [hx] at h
    cases h
    exact ⟨rfl, rfl⟩

theorem Env.sendTarget_ok {env : Env} {x m : Ident} {o me : Entry} (h : env.sendTarget x m = .ok (o, me)) :
    env.lookup x = some o ∧ ∃ c T, o.ty = .ref c ∧ env.tables.lookup c = some T ∧ T.lookup m = some me ∧
      me.ty.isMethod = true := by
  unfold Env.sendTarget at h
  split at h
  · cases h
  · rename_i o' ho
    split at h
    · rename_i c hc
      split at h
      · rename_i m' hm
        obtain ⟨T, hT, hTm⟩ := Option.bind_eq_some_iff.1 hm
        split at h
        · cases h
          exact ⟨ho, c, T, hc, hT, hTm, ‹_›⟩
        · cases h
      · cases h
    · cases h

theorem Env.instantiable_eq {env : Env} {e : Entry} {cls : Ident} (h : env.instantiable cls = some e) :
    (env.tables.lookup cls).isSome ∧ env.globals.lookup cls = some e := by
  unfold Env.instantiable at h
  split at h
  · exact ⟨‹_›, h⟩
  · cases h

theorem exists_of_bind_ok {ε α β : Type} {x : Except ε α} {f : α → Except ε β} {b : β} (h : x >>= f = .ok b) :
    ∃ a, x = .ok a ∧ f a = .ok b := by
  cases x with
  | error e => cases h
  | ok a => exact ⟨a, rfl, h⟩

theorem Eval.bind_ok {α β : Type} {x : Eval α} {f : α → Eval β} {v : α} {w w' : World} (h : x w = .ok v w') :
    (x >>= f) w = f v w' := by
  change EStateM.bind x f w = f v w'
  rw [EStateM.bind, h]

theorem lookup_zip {x : Ident} {v : Value} : ∀ {names : List Ident} {vs : List Value} {i : Nat}, names.Nodup →
    names[i]? = some x → vs[i]? = some v → (names.zip vs).lookup x = some v
  | [], _, _, _, hi, _ => nomatch hi
  | _ :: _, [], _, _, _, hv => nomatch hv
  | n :: names, u :: vs, 0, _, hi, hv => by
    cases hi
    cases hv
    simp
  | n :: names, u :: vs, i + 1, hn, hi, hv => by
    obtain ⟨hnot, hn⟩ := List.nodup_cons.1 hn
    have hmem : x ∈ names := List.mem_of_getElem? hi
    have hne : x ≠ n := fun h => hnot (h ▸ hmem)
    rw [List.zip_cons_cons, lookup_cons_of_ne hne]
    exact lookup_zip hn hi hv

namespace Host

variable (H : Host) (P : Plan)

/-- What the machine does when evaluation stops without a value. -/
def Ends : Stop → List Int32 → Prop
  | .exhausted, out => H.Starved out
  | .divisionByZero, out => ∃ ip, H.Faulted (.divisionByZero ip) out
  | .nullReceiver, out => ∃ ip, (∀ M ≤ Text.maxInt32, DispatchLoad M (H.code.fill M) P.nodes ip) ∧
      H.Faulted (.invalidAddress (-1) ip) out
  | .stuck, _ => False

/-- What the machine does after an evaluation, where `Q` tells it of the ones that end with a value. -/
def Outcome {α : Type} (r : EStateM.Result Stop World α) (Q : α → World → Prop) : Prop :=
  match r with
  | .ok v w => Q v w
  | .error e w => H.Ends P e w.printed

/-- The machine gets to where these lines remain, the objects and the heap having grown. -/
def Arrives (w : World) (hs : List Cell) (fp : Cell) (rest : Code) (s : List Cell) (w' : World) : Prop :=
  ∃ hs' ra tm, hs <+: hs' ∧ w.Grows w' ∧ H.Represents P w' hs' ∧ H.At rest s hs' hs'.length fp ra tm w'.printed

/-- A call that may have `d` calls pending does what the code of a routine does: where the address of the routine is
on the stack, above the access link, the arguments and the frame of the caller, the result comes to stand in their
place. -/
def Invokes (call : Call) (d : Nat) : Prop :=
  ∀ ⦃env : Env⦄ ⦃r : Routine⦄ ⦃ret : Ty⦄ ⦃f : Nat⦄ (ctx : Context) ⦃args : List Value⦄ ⦃w : World⦄
    ⦃s hs : List Cell⦄ ⦃link b fp ra tm : Cell⦄ ⦃rest : Code⦄,
    Compiled H P env r ret f (ctx.self.map fun _ => env.level + 1) →
    H.Linked P (link :: (args.map Value.cell ++ b :: s)) hs w env.scopes env.level ctx.self ctx.bindings link →
    List.Forall₂ (fun v t => v.Has P.types.hierarchy w t) args (r.params.map Param.ty) →
    H.Represents P w hs → Ground P s hs → H.memory ≤ d + s.length → 0 < rest.size →
    H.code.address (.routine f) ≤ Text.maxInt32 → H.code.CallsWith Code.mark rest args.length →
    H.At (.op .js :: rest) (Cell.ofNat (H.code.address (.routine f)) :: link :: (args.map Value.cell ++ b :: s)) hs
      hs.length fp ra tm w.printed →
    H.Outcome P (call ctx r args w) fun v w' =>
      v.Has P.types.hierarchy w' ret ∧ H.Arrives P w hs b rest (v.cell :: s) w'

variable {H P} {w w' : World} {s hs : List Cell} {fp : Cell}

theorem Outcome.bind {α β : Type} {x : Eval α} {f : α → Eval β} {Q : α → World → Prop} {R : β → World → Prop}
    (h : H.Outcome P (x w) Q) (hf : ∀ v w', Q v w' → H.Outcome P (f v w') R) : H.Outcome P ((x >>= f) w) R := by
  change H.Outcome P (EStateM.bind x f w) R
  unfold Outcome at h
  unfold EStateM.bind
  split at h
  · rename_i v w' hx
    rw [hx]
    exact hf v w' h
  · rename_i e w' hx
    rw [hx]
    exact h

theorem Outcome.mono {α : Type} {r : EStateM.Result Stop World α} {Q R : α → World → Prop} (h : H.Outcome P r Q)
    (hq : ∀ v w, Q v w → R v w) : H.Outcome P r R := by
  unfold Outcome at h ⊢
  split at h
  · exact hq _ _ h
  · exact h

theorem Arrives.before {w₀ : World} {hs₀ : List Cell} {rest : Code} (h : H.Arrives P w hs fp rest s w')
    (hw : w₀.Grows w) (hh : hs₀ <+: hs) : H.Arrives P w₀ hs₀ fp rest s w' := by
  obtain ⟨hs', ra, tm, hh', hw', hr, hat⟩ := h
  exact ⟨hs', ra, tm, hh.trans hh', hw.trans hw', hr, hat⟩

/-! ## Members of objects -/

theorem Represents.field (hP : P.Sound H) (hr : H.Represents P w hs) {a : Nat} {o : Object} {c x : Ident} {e : Entry}
    (ho : w.objects.lookup a = some o) (hf : P.HasField c o.cls x e) :
    ∃ v, readField a x w = .ok v w ∧ Sees s hs (Cell.ofNat a + Cell.ofInt e.offset) v.cell ∧
      v.Has P.types.hierarchy w e.ty := by
  obtain ⟨i, l, t, hi, hoff, hl, ht, href⟩ := hf.held
  obtain ⟨vs, hfields, -, hcells, htyped⟩ := (hr.objects a o ho).fields
  have htyped := htyped l hl
  have hlt : i < l.fields.length := (List.getElem?_eq_some_iff.1 ht).1
  rw [← htyped.length_eq] at hlt
  have hvi : vs[i]? = some vs[i] := List.getElem?_eq_getElem hlt
  refine ⟨vs[i], ?_, ?_, ?_⟩
  · have hx : o.fields.lookup x = some vs[i] := by rw [hfields, lookup_zip (hP.distinct _) hi hvi]
    rw [readField, get_bind_eq, ho]
    dsimp only
    rw [hx]
    rfl
  · obtain ⟨hai, hcell⟩ := hcells i _ hvi
    refine .inl ⟨_, hcell, ?_⟩
    have hat : ((a - (i + 1) : Nat) : Int) = a + (-(i : Int) - 1) := by omega
    rw [show Cell.ofInt e.offset = .ofInt (-(i : Int) - 1) from congrArg Cell.const hoff, ← Cell.ofInt_eq_ofNat,
      ← Cell.ofInt_eq_ofNat, hat, Cell.ofInt_add]
  · have hv := (List.forall₂_iff_get.1 htyped).2 i hlt (by rw [← htyped.length_eq]; exact hlt)
    simp only [List.get_eq_getElem] at hv
    rw [(List.getElem?_eq_some_iff.1 ht).2] at hv
    exact href _ _ hv

/-- **A call of a method finds the method that the class of the object has**, by the dispatch pointer at the address of
the object. -/
theorem Invokes.method {call : Call} {d : Nat} (hcall : H.Invokes P call d) {a : Nat} {o : Object} {c m : Ident}
    {e : Entry} {sig : Signature} {args : List Value} {b ra tm : Cell} {rest : Code} (ho : w.objects.lookup a = some o)
    (hm : P.HasMethod H c o.cls m e) (ht : e.ty = .method sig) (hfits : FitsWord e.offset)
    (hargs : List.Forall₂ (fun v t => v.Has P.types.hierarchy w t) args sig.params) (hr : H.Represents P w hs)
    (hg : Ground P s hs) (hd : H.memory ≤ d + s.length) (h0 : 0 < rest.size)
    (hsite : H.code.CallsWith Code.mark rest args.length)
    (hat : H.At (.op .lw :: Line.loadAt e.offset ++ .op .js :: rest)
      (Cell.ofNat a :: Cell.ofNat a :: (args.map Value.cell ++ b :: s)) hs hs.length fp ra tm w.printed) :
    H.Outcome P (callMethod P.classes call a m args w) fun v w' =>
      v.Has P.types.hierarchy w' sig.ret ∧ H.Arrives P w hs b rest (v.cell :: s) w' := by
  obtain ⟨j, table, sig', c', d', f, hoff, htable, hslot, hty, hfind, hbelow, href, himp⟩ := hm.held
  obtain rfl : sig' = sig := Ty.method.inj (hty.symm.trans ht)
  obtain ⟨env, T, G, hcomp, hscopes, hlevel, hT, hG⟩ := himp.compiled
  obtain ⟨base, hbase, hpointer⟩ := (hr.objects a o ho).dispatch
  obtain ⟨hcell, hnear⟩ := hr.tables _ _ _ htable hbase j _ hslot
  have hload : Sees (Cell.ofNat a :: (args.map Value.cell ++ b :: s)) hs (Cell.ofNat base + Cell.ofInt e.offset)
      (Cell.ofNat (H.code.address (.routine f))) :=
    .inl ⟨base + j, hcell, by
      rw [show Cell.ofInt e.offset = .ofNat j from congrArg Cell.const hoff, Cell.ofNat_add]⟩
  have hjs := At.loadAt (At.lw hat (.inl ⟨a, hpointer, rfl⟩)) hfits hload
  have hL : H.Linked P (Cell.ofNat a :: (args.map Value.cell ++ b :: s)) hs w env.scopes env.level (some (c', a)) []
      (Cell.ofNat a) := by
    rw [hscopes, hlevel]
    exact .object hT hG ho hbelow
  have hlevels : Compiled H P env d'.routine d'.ret f (some (env.level + 1)) := by rwa [hlevel]
  have hrun := hcall ⟨some (c', a), []⟩ hlevels hL (href.args hargs) hr hg hd h0 hnear hsite hjs
  have hev : callMethod P.classes call a m args w = call ⟨some (c', a), []⟩ d'.routine args w := by
    rw [callMethod, get_bind_eq, ho]
    dsimp only
    rw [hfind]
  rw [hev]
  exact hrun.mono fun v w' hv => ⟨href.ret _ _ hv.1, hv.2⟩

/-! ## Names -/

/-- **A name that has a value is read**, and its value lies at its offset in the frame of its level. -/
theorem Ready.read (hP : P.Sound H) {env : Env} {ctx : Context} (h : H.Ready P env ctx w s hs fp) {x : Ident}
    {e : Entry} (hx : env.lookup x = some e) (ht : e.ty.isValue = true) :
    ∃ v base, ctx.read P.classes x w = .ok v w ∧ Hops s hs (env.level - e.level) fp base ∧
      Sees s hs (base + Cell.ofInt e.offset) v.cell ∧ v.Has P.types.hierarchy w e.ty := by
  cases h.linked.find hx with
  | @value v visible base hb _ hh hv hty =>
    refine ⟨v, base, ?_, hh, hv, hty⟩
    rw [Context.read, hb]
    rfl
  | function _ _ _ _ _ hty =>
    rw [hty] at ht
    cases ht
  | @member c a o T hb hself hT ho hbel hTx _ hh =>
    have hnm : e.ty.isMethod = false := by
      revert ht
      cases e.ty <;> simp [Ty.isValue, Ty.isMethod]
    have hf := hP.field c T x e o.cls hT hTx hnm (h.heap.objects a o ho).known hbel
    obtain ⟨v, hread, hv, hty⟩ := h.heap.field (s := s) hP ho hf
    refine ⟨v, Cell.ofNat a, ?_, by rw [hf.level]; exact hh, hv, hty⟩
    simp only [Context.read, hb, hself]
    rw [if_pos hf.named, hread]
  | cls hty =>
    rw [hty] at ht
    cases ht

/-- The frame is loaded for a call with more on the stack than it was when the frame was entered. -/
theorem Ready.tethered_invoke {env : Env} {ctx : Context} {u : Use} {rest : Code} {s' : List Cell}
    (h : H.Ready P env ctx w s hs fp) (h0 : H.Stands env ctx rest) (hst : s <:+ s')
    (hcode : u.invoke ++ rest <:+ H.code) : H.Tethered s' hs fp (u.invoke ++ rest) :=
  (h.tethered (h0.append hcode (Code.Inner.of_flat (flat_invoke u)).routine?_eq_none)).later hst (List.prefix_refl _)

/-- A member that is called is a method of the object, with the frame of the object as access link. -/
theorem Ready.invoke_member (hP : P.Sound H) {call : Call} {d : Nat} (hcall : H.Invokes P call d) {env : Env}
    {ctx : Context} {x c : Ident} {e : Entry} {T : Scope} {a : Nat} {o : Object} {sig : Signature} {args : List Value}
    {ra tm : Cell} {rest : Code} (h : H.Ready P env ctx w s hs fp) (hb : findBound x ctx.bindings = none)
    (hself : ctx.self = some (c, a)) (hT : P.tables.lookup c = some T) (ho : w.objects.lookup a = some o)
    (hbelow : P.types.hierarchy.Below o.cls c) (hTx : T.lookup x = some e)
    (hh : Hops s hs (env.level - 1) fp (Cell.ofNat a)) (hsig : e.ty = .function sig ∨ e.ty = .method sig)
    (hfits : FitsWord e.offset)
    (hargs : List.Forall₂ (fun v t => v.Has P.types.hierarchy w t) args sig.params) (hd : H.memory ≤ d + s.length)
    (h0 : H.Stands env ctx rest) (hsite : H.code.CallsWith Code.mark rest args.length)
    (hat : H.At ((⟨x, env.level, some e⟩ : Use).invoke ++ rest) (args.map Value.cell ++ fp :: s) hs hs.length fp ra tm
      w.printed) :
    H.Outcome P (ctx.invoke P.classes call x args w) fun v w' =>
      v.Has P.types.hierarchy w' sig.ret ∧ H.Arrives P w hs fp rest (v.cell :: s) w' := by
  have hknown := (h.heap.objects a o ho).known
  cases hm : e.ty.isMethod with
  | false =>
    have hf := hP.field c T x e o.cls hT hTx hm hknown hbelow
    obtain ⟨v, -, -, hv⟩ := h.heap.field (s := s) hP ho hf
    exact absurd hsig hv.not_callable
  | true =>
    have hmeth := hP.method c T x e o.cls hT hTx hm hknown hbelow
    have hty : e.ty = .method sig := by
      rcases hsig with hfun | hmethod
      · rw [hfun] at hm
        cases hm
      · exact hmethod
    have hst : s <:+ args.map Value.cell ++ fp :: s := (List.suffix_cons _ _).trans (List.suffix_append _ _)
    have hhops : Hops (args.map Value.cell ++ fp :: s) hs (env.level - e.level) fp (Cell.ofNat a) := by
      rw [hmeth.level]
      exact hh.later hst (List.prefix_refl _)
    have hties := h.tethered_invoke h0 hst hat.suffix
    rw [Use.invoke] at hat hties
    simp only [List.append_assoc] at hat hties
    have hlw := At.frame hat hties hhops
    rw [if_pos hm] at hlw
    have hrun := hcall.method ho hmeth hty hfits hargs h.heap h.ground hd h0.more hsite (At.shareLink hlw)
    have hev : ctx.invoke P.classes call x args w = callMethod P.classes call a x args w := by
      simp only [Context.invoke, hb, hself]
      rw [if_pos hmeth.named]
    rw [hev]
    exact hrun

/-- **A name that is called is invoked**: a function in the frame that declares it, a method on the object. -/
theorem Ready.invoke (hP : P.Sound H) {call : Call} {d : Nat} (hcall : H.Invokes P call d) {env : Env} {ctx : Context}
    {x : Ident} {sig : Signature} {line : Nat} {args : List Value} {ra tm : Cell} {rest : Code}
    (h : H.Ready P env ctx w s hs fp) (hu : (env.use x).calleeSignature line = .ok sig)
    (hfits : ∀ e ∈ (env.use x).entry, FitsWord e.offset)
    (hargs : List.Forall₂ (fun v t => v.Has P.types.hierarchy w t) args sig.params) (hd : H.memory ≤ d + s.length)
    (h0 : H.Stands env ctx rest) (hsite : H.code.CallsWith Code.mark rest args.length)
    (hat : H.At ((env.use x).invoke ++ rest) (args.map Value.cell ++ fp :: s) hs hs.length fp ra tm w.printed) :
    H.Outcome P (ctx.invoke P.classes call x args w) fun v w' =>
      v.Has P.types.hierarchy w' sig.ret ∧ H.Arrives P w hs fp rest (v.cell :: s) w' := by
  obtain ⟨e, he, hsig⟩ := Use.calleeSignature_ok hu
  obtain ⟨hx, huse⟩ := Env.use_entry he
  have hfits := hfits e he
  rw [huse] at hat
  have hst : s <:+ args.map Value.cell ++ fp :: s := (List.suffix_cons _ _).trans (List.suffix_append _ _)
  cases h.linked.find hx with
  | value _ _ _ _ hv => exact absurd hsig hv.not_callable
  | @function r visible base env' ret f hb hn hh hv hnear hty hc hL =>
    obtain rfl : signatureOf r.params ret = sig := by simpa [hty] using hsig
    have hties := h.tethered_invoke h0 hst hat.suffix
    rw [Use.invoke] at hat hties
    simp only [List.append_assoc] at hat hties
    have hjs := At.frame hat hties (hh.later hst (List.prefix_refl _))
    rw [hty] at hjs
    have hjs := (At.shareLink hjs).loadAt hfits (hv.later (hst.trans (List.suffix_cons _ _)) (List.prefix_refl _))
    have hrun := hcall ⟨ctx.self, visible⟩ hc
      (hL.later (hst.trans (List.suffix_cons _ _)) (List.prefix_refl _) (.refl _)) hargs h.heap h.ground hd h0.more
      hnear hsite hjs
    have hev : ctx.invoke P.classes call x args w = call ⟨ctx.self, visible⟩ r args w := by
      rw [Context.invoke, hb]
    rw [hev]
    exact hrun
  | member hb hself hT ho hbelow hTx _ hh =>
    exact h.invoke_member hP hcall hb hself hT ho hbelow hTx hh hsig hfits hargs hd h0 hsite hat
  | cls hty => simp [hty] at hsig

end Host
end FoolLang
