import FoolLang.Proofs.Passing
/-!
# Calls — a call leaves a value and changes nothing else

A routine takes from the stack what a call has put there, leaves its value in the place of the frame pointer that the
call has kept, and goes back to the line after the call with that frame pointer (`Machine.CameBack`).  Calls are made
on the way through a routine; the induction is on the activation, in which they have come back already.
-/
namespace FoolLang

open Machine

/-- A machine about to leave the routine that `base` has entered: the return address is back in its register, and `p`
of the values that lay on top of the stack are gone. -/
structure Machine.Leaves (base : Machine) (p : Nat) (m : Machine) : Prop where
  ra : m.ra = base.ra
  sp : m.sp = base.sp + p
  cells : ∀ a, m.sp ≤ a → m.memory.get? a = base.memory.get? a

/-- A machine about to return from the routine with `n` arguments that `base` has entered: the return address is on top
of the stack, the access link and the arguments are gone, and the frame pointer that lay under them is the frame pointer
again. -/
structure Machine.Left (base : Machine) (n : Nat) (m : Machine) : Prop where
  top : m.top = some base.ra
  sp : m.sp = base.sp + n
  fp : base.memory.get? (base.sp + n + 1) = some m.fp
  cells : ∀ a, base.sp + n + 2 ≤ a → m.memory.get? a = base.memory.get? a

/-! ## Leaving a routine -/

theorem Machine.Leaves.next {base m m' : Machine} {p : Nat} {i : Instr} (h : base.Leaves p m) (hmoves : Moves i m m')
    (hsra : i ≠ .op .sra) (hsw : i ≠ .op .sw) (htakes : i.takes = 1) (hleaves : i.leaves = 0) :
    base.Leaves (p + 1) m' := by
  have hsp₀ := h.sp
  have hsp₁ := hmoves.sp
  refine ⟨(hmoves.ra hsra).trans h.ra, by omega, fun a ha => ?_⟩
  exact (hmoves.cells a (by omega) fun he => absurd he hsw).trans (h.cells a (by omega))

namespace Trip

variable {T : Trip} {rest after : Code} {p n : Nat} {base : Machine}

theorem Passes.pop (h : T.Passes (.op .pop :: rest) (base.Leaves p)) : T.Passes rest (base.Leaves (p + 1)) :=
  h.next (i := .op .pop) rfl (by simp) (by simp) fun _ _ _ hm _ _ hmoves _ =>
    hm.next hmoves (by simp) (by simp) rfl rfl

theorem Passes.pops : ∀ {n p : Nat}, T.Passes (List.replicate n (.op .pop) ++ rest) (base.Leaves p) →
    T.Passes rest (base.Leaves (p + n))
  | 0, _, h => h
  | n + 1, p, h => by
    rw [List.replicate_succ, List.cons_append] at h
    have h' := h.pop.pops
    rwa [Nat.add_assoc, Nat.add_comm 1] at h'

theorem Passes.dropLocals {b : Nat} : ∀ {n : Nat}, T.Passes (List.replicate n (.op .pop) ++ rest) (Atop base b n) →
    T.Passes rest (Atop base b 0)
  | 0, h => h
  | n + 1, h => by
    rw [List.replicate_succ, List.cons_append] at h
    exact (h.plain rfl).dropLocals

/-- On entry a routine keeps the return address on the stack. -/
theorem Passes.enter {l : Label} (h : T.Passes (.define l :: .op .cfp :: .op .lra :: rest) (· = base)) :
    T.Passes rest fun m => m.sp + 1 = base.sp ∧ m.top = some base.ra ∧
      ∀ a, base.sp ≤ a → m.memory.get? a = base.memory.get? a := by
  have hcfp : T.Passes (.op .lra :: rest) fun m => m.sp = base.sp ∧ m.ra = base.ra ∧
      ∀ a, base.sp ≤ a → m.memory.get? a = base.memory.get? a :=
    h.define.next (i := .op .cfp) rfl (by simp) (by simp) fun m m' _ hm _ _ hmoves _ => by
      subst hm
      exact ⟨hmoves.sp, hmoves.ra (by simp), fun a ha => hmoves.cells a ha (by simp)⟩
  refine hcfp.next (i := .op .lra) rfl (by simp) (by simp) fun m m' hm hq hs hinstr hmoves _ => ?_
  obtain ⟨hsp, hra, hcells⟩ := hq
  have htop := step_lra hs hinstr (T.disciplined.room m hm)
  refine ⟨hmoves.sp.trans hsp, htop.trans (congrArg some hra), fun a ha => ?_⟩
  have ha' : m.sp + Instr.takes (.op .lra) ≤ a := hsp ▸ ha
  exact (hmoves.cells a ha' (by simp)).trans (hcells a ha)

/-- **The end of a routine takes the frame from the stack.** -/
theorem Passes.exit {inner : Machine} (hsp : inner.sp + 1 = base.sp) (htop : inner.top = some base.ra)
    (hcells : ∀ a, base.sp ≤ a → inner.memory.get? a = base.memory.get? a)
    (h : T.Passes (.op .sra :: .op .pop :: (List.replicate n (.op .pop) ++ .op .sfp :: .op .ltm :: .op .lra :: rest))
      (Atop inner inner.sp 0)) :
    T.Passes rest fun m => base.Left n m ∧ ∃ i, m.ip = i + 1 ∧ T.code.instrs[i]? = some (.op .lra) := by
  have hsra : T.Passes (.op .pop :: (List.replicate n (.op .pop) ++ .op .sfp :: .op .ltm :: .op .lra :: rest))
      (base.Leaves 0) :=
    h.next (i := .op .sra) rfl (by simp) (by simp) fun m m' _ hm hs hinstr hmoves _ => by
      have hsp₀ : m.sp = inner.sp := hm.sp
      have hsp₁ : m'.sp = m.sp + 1 := hmoves.sp
      refine ⟨?_, by omega, fun a ha => ?_⟩
      · have hra := step_sra hs hinstr
        rw [Machine.top, hm.cells m.sp (Nat.le_of_eq hsp₀.symm), hsp₀] at hra
        exact Option.some.inj (hra.symm.trans htop)
      · exact ((hmoves.cells a (hsp₁ ▸ ha) (by simp)).trans (hm.cells a (by omega))).trans (hcells a (by omega))
  have hsfp : T.Passes (.op .ltm :: .op .lra :: rest) fun m => base.Leaves (n + 2) m ∧
      base.memory.get? (base.sp + n + 1) = some m.fp :=
    hsra.pop.pops.next (i := .op .sfp) rfl (by simp) (by simp) fun m m' _ hm hs hinstr hmoves _ => by
      have hleaves := hm.next hmoves (by simp) (by simp) rfl rfl
      have hsp : m.sp = base.sp + n + 1 := by
        have hsp₀ := hm.sp
        omega
      have hfp := step_sfp hs hinstr
      rw [Machine.top, hm.cells m.sp (Nat.le_refl _), hsp] at hfp
      refine ⟨?_, hfp⟩
      rwa [show 0 + 1 + n + 1 = n + 2 by omega] at hleaves
  have hltm : T.Passes (.op .lra :: rest) fun m => m.ra = base.ra ∧ m.sp = base.sp + n + 1 ∧
      base.memory.get? (base.sp + n + 1) = some m.fp ∧
      ∀ a, base.sp + n + 2 ≤ a → m.memory.get? a = base.memory.get? a :=
    hsfp.next (i := .op .ltm) rfl (by simp) (by simp) fun m m' _ ⟨hm, hfp⟩ _ _ hmoves _ => by
      have hsp₀ := hm.sp
      have hsp₁ : m'.sp + 1 = m.sp := hmoves.sp
      refine ⟨(hmoves.ra (by simp)).trans hm.ra, by omega, by rwa [hmoves.fp (by simp) (by simp)], fun a ha => ?_⟩
      have ha' : m.sp ≤ a := by omega
      exact (hmoves.cells a ha' (by simp)).trans (hm.cells a ha')
  refine hltm.next (i := .op .lra) rfl (by simp) (by simp) fun m m' hm hq hs hinstr hmoves hip => ?_
  obtain ⟨hra, hsp₀, hfp, hkept⟩ := hq
  have hsp₁ : m'.sp + 1 = m.sp := hmoves.sp
  have htop' := step_lra hs hinstr (T.disciplined.room m hm)
  refine ⟨⟨htop'.trans (congrArg some hra), by omega, by rwa [hmoves.fp (by simp) (by simp)], fun a ha => ?_⟩,
    m.ip, hip, hinstr⟩
  have ha' : m.sp ≤ a := by omega
  exact (hmoves.cells a ha' (by simp)).trans (hkept a ha)

/-- **A routine takes its frame from the stack**, with the calls that it makes. -/
theorem Passes.routine {f k : Nat} {locals : List Dec} {body : Expr}
    (hc : ∀ x ∈ localNodes locals ++ body.nodes, x.Complete ∧ x.OffsetsFit)
    (h : T.Passes (routineCode f n locals.length (localCode T.memory k (f + 1) locals)
      (body.code T.memory (k + localLabels locals)) ++ after) (· = base))
    (hreturn : T.target.Returning T.code.instrs) : base.Left n T.target := by
  rw [routineCode] at h
  simp only [List.append_assoc, List.cons_append, List.nil_append] at h
  obtain ⟨inner, hlive, ha, hb, hp, hsp, htop, hcells⟩ := h.enter (.inr hreturn)
  have hinner : T.Passes _ (Atop inner inner.sp 0) := fun _ => ⟨inner, hlive, ha, hb, hp, .refl inner⟩
  have hdecs := passes_localCode locals k (f + 1) (fun x hx => hc x (List.mem_append_left _ hx)) hinner
  rw [Nat.zero_add] at hdecs
  have hbody := body.passes _ (fun x hx => hc x (List.mem_append_right _ hx)) hdecs
  have hend := (hbody.plain rfl).dropLocals.exit hsp htop hcells
  obtain ⟨m, -, -, hb, hp, hm, i, hip, hi⟩ := hend (.inr hreturn)
  have hjs : T.code.instrs[m.ip]? = some (.op .js) := hb.instr rfl
  -- a machine that returns makes no stride
  rcases hp.cases_head with rfl | ⟨m', hs, -⟩
  · exact hm
  · cases hs with
    | line hne => exact absurd hjs hne
    | call _ _ hcalls =>
      obtain ⟨_, _, _, _, hnot, -⟩ := hcalls
      exact absurd ⟨hjs, i, hip, hi⟩ hnot

end Trip

section

variable {code rest after : Code} {memory n : Nat} {m m' : Machine}

/-! ## Activations in strides -/

/-- **A call that comes back has taken from the stack what it had put there.** -/
theorem Machine.cameBack {m₁ m₂ : Machine} {f k : Nat} {locals : List Dec} {body : Expr}
    (hcode : code.Disciplined memory) (hm : m.Live code memory) (hjs : code.instrs[m.ip]? = some (.op .js))
    (hs : step code.instrs m = (m₁, .running))
    (hc : ∀ x ∈ localNodes locals ++ body.nodes, x.Complete ∧ x.OffsetsFit)
    (hb : m₁.Before code (routineCode f n locals.length (localCode memory k (f + 1) locals)
      (body.code memory (k + localLabels locals)) ++ after))
    (hp : Path code memory m₁ m₂) (hr : m₂.Returning code.instrs) (hs' : step code.instrs m₂ = (m', .running)) :
    m.CameBack n m' := by
  let T : Trip := ⟨code, memory, hcode, m₁, m₂⟩
  have hentry : T.Passes _ (· = m₁) := fun _ => ⟨m₁, hm.step hs, .refl _, hb, hp, rfl⟩
  obtain ⟨htop, hsp, hfp, hcells⟩ := hentry.routine hc hr
  obtain ⟨v, -, hnear, rfl⟩ := step_js hs hjs
  obtain ⟨back, hback, -, rfl⟩ := step_js hs' hr.1
  have hsp' : m₂.sp = m.sp + 1 + n := hsp
  have hint : (Int32.ofNat (m.ip + 1)).toInt = (m.ip + 1 : Nat) := Int32.toInt_ofNat_of_le (by omega)
  refine ⟨?_, ?_, ?_, fun a ha => hcells a ?_⟩
  · have hra : back = Int32.ofNat (m.ip + 1) := Option.some.inj (hback.symm.trans htop)
    show back.toInt.toNat = m.ip + 1
    rw [hra, hint]
    rfl
  · show m₂.sp + 1 = m.sp + (n + 2)
    omega
  · show m.memory.get? (m₂.sp + 1) = some m₂.fp
    rw [hsp']
    exact hfp
  · have ha' : m₂.sp + 1 < a := ha
    show m.sp + 1 + n + 2 ≤ a
    omega

/-- **An activation goes on in strides**: the calls in it come back.  The induction is on the activation, so what is
known of the calls made by a routine is known when it returns. -/
theorem Machine.Activation.path (hcode : code.Disciplined memory) (h : Activation code.instrs m m')
    (hm : m.Live code memory) : Path code memory m m' := by
  induction h with
  | refl => exact .refl
  | line hjs hs _ ih => exact .head (.line hjs hs) (ih (hm.step hs))
  | @call m m₁ m₂ m₃ m' hjs hr hs hin hr' hs' hrest ihin ih =>
    obtain ⟨rest, f, n, hb, hsite, htakes, htop⟩ := hcode.calls m hm hjs hr
    obtain ⟨hnear, k, locals, body, after, hc, hroutine⟩ := id htakes
    have hm₁ := hm.step hs
    have hip : m₁.ip = code.address (.routine f) := by
      obtain ⟨v, hv, -, rfl⟩ := step_js hs hjs
      have hv' : v = Int32.ofNat (code.address (.routine f)) := Option.some.inj (hv.symm.trans htop)
      show v.toInt.toNat = _
      rw [hv', Int32.toInt_ofNat_of_le hnear]
      rfl
    have hentry := hcode.before_of_address hroutine hip
    have hback := cameBack hcode hm hjs hs hc hentry (ihin hm₁) hr' hs'
    have hcalls : m.Calls code memory n m₃ := ⟨f, m₁, m₂, hjs, hr, hs, hip, htakes, hin, hr', hs'⟩
    exact .head (.call hb hsite hcalls hback) (ih (hcalls.activation.live hm))

theorem Machine.Stride.forward (hcode : code.Disciplined memory) (h : Stride code memory m m')
    (hm : m.Live code memory) : m.ip < m'.ip := by
  cases h with
  | call _ _ _ hback =>
    rw [hback.ip]
    exact Nat.lt_succ_self _
  | line hjs hs =>
    obtain ⟨i, hi⟩ : ∃ i, code.instrs[m.ip]? = some i := by
      cases hi : code.instrs[m.ip]? with
      | none =>
        rw [step, hi] at hs
        cases hs
      | some i => exact ⟨i, rfl⟩
    rcases (step_moves hs hi fun he => hjs (he ▸ hi)).ip with ⟨hip, -⟩ | ⟨b, rfl⟩
    · omega
    · exact hcode.forward m b _ hm hi

/-- **An activation comes to a line once.** -/
theorem Machine.Path.eq_of_ip (hcode : code.Disciplined memory) (h : Path code memory m m') (hm : m.Live code memory)
    (hip : m'.ip = m.ip) : m = m' := by
  have hle : ∀ {m m' : Machine}, Path code memory m m' → m.Live code memory → m.ip ≤ m'.ip := fun {m m'} h => by
    induction h using Relation.ReflTransGen.head_induction_on with
    | refl => exact fun _ => Nat.le_refl _
    | head hs _ ih => exact fun hm => Nat.le_trans (Nat.le_of_lt (hs.forward hcode hm)) (ih (hs.activation.live hm))
  rcases h.cases_head with rfl | ⟨m₁, hs, hp⟩
  · rfl
  · have hlt := hs.forward hcode hm
    have hle := hle hp (hs.activation.live hm)
    omega

/-- **A call that comes to its end has left a value**, and the frame and the cells below are as they were. -/
theorem Trip.call {T : Trip} {call : Expr} {args : List Expr} {k : Nat} {pre post : Code}
    (hargs : call.arguments? = some args) (hc : ∀ x ∈ call.nodes, x.Complete ∧ x.OffsetsFit)
    (he : T.code = pre ++ call.code T.memory k ++ post) (hm : T.start.Live T.code T.memory)
    (hip : T.start.ip = pre.size) (h : Activation T.code.instrs T.start T.target)
    (hend : T.target.ip = Code.size (pre ++ call.code T.memory k)) :
    Atop T.start T.start.sp 1 T.target ∧ T.Called args.length T.target := by
  rw [List.append_assoc] at he
  have hstart : T.Passes (call.code T.memory k ++ post) (Atop T.start T.start.sp 0) := fun _ =>
    ⟨T.start, hm, .refl _, ⟨pre, he.symm, hip⟩, h.path T.disciplined hm, .refl _⟩
  have hsize : T.code.size = Code.size (pre ++ call.code T.memory k) + post.size := by
    rw [he]
    simp only [Code.size_append, Nat.add_assoc]
  have hpast : T.Past post := .inl (by omega)
  obtain ⟨x, hx, -, hb, hp, hq⟩ :=
    hstart.call hargs hc (passes_codeBack args k (Expr.forall_argNodes hargs hc)) hpast
  have hxsize := hb.size
  exact hp.eq_of_ip T.disciplined hx (by omega) ▸ hq

end

/-! ## Compiled programs -/

namespace Code

variable {template rest : Code} {memory n f : Nat}

theorem CallsWith.fill (hm : memory ≤ Text.maxInt32) (h : template.CallsWith mark rest n) :
    (template.fill memory).CallsWith memory (rest.fill memory) n := by
  obtain ⟨call, args, k, hargs, hn, hc, pre, rfl⟩ := h
  refine ⟨call, args, k, hargs, hn, hc, Code.fill memory pre, ?_⟩
  rw [fill_append, fill_append, Expr.fill_code hm fun x hx => (hc x hx).2]

theorem Takes.fill (hm : memory ≤ Text.maxInt32) (h : template.Takes mark f n) :
    (template.fill memory).Takes memory f n := by
  obtain ⟨hnear, k, locals, body, after, hc, pre, hp⟩ := h
  refine ⟨by rwa [address_fill], k, locals, body, after.fill memory, hc, Code.fill memory pre, ?_⟩
  rw [← hp, fill_append, fill_append, fill_routineCode,
    fill_localCode hm fun x hx => (hc x (List.mem_append_left _ hx)).2,
    Expr.fill_code hm fun x hx => (hc x (List.mem_append_right _ hx)).2]

end Code

/-- A branch whose label is defined in the lines that follow goes to a later place. -/
theorem Host.place_lt_address {H : Host} {b : Branch} {l : Label} {rest : Code}
    (hline : .branch b l :: rest <:+ H.code) (hl : .define l ∈ rest) :
    H.place (.branch b l :: rest) < H.code.address l := by
  obtain ⟨mid, after, rfl⟩ := List.append_of_mem hl
  have hrest := suffix_of_cons hline
  have hplace := place_cons hline rfl
  have haddress := address_eq (suffix_of_append hrest)
  obtain ⟨pre, hpre⟩ := hrest
  have hpre' : (pre ++ mid) ++ .define l :: after = H.code := by rw [List.append_assoc]; exact hpre
  have hafter := place_of_suffix hpre'
  rw [place_define, Code.size_append] at hafter
  rw [place_of_suffix hpre] at hplace
  omega

/-- **Machines that are tracked keep to what the lines of the code are run with.** -/
theorem Host.disciplined {H : Host} (htracks : ∀ n, H.Tracks H.memory n) : H.fullCode.Disciplined H.memory := by
  have hshows : ∀ m : Machine, m.Live H.fullCode H.memory → ∃ c, m.Shows H.memory c ∧ H.Orderly c := by
    rintro m ⟨n, hr⟩
    exact htracks n m hr
  refine ⟨fun l => ?_, fun m hm => ?_, fun m hm hi => ?_, fun m b t hm hi => ?_, fun m hm hi hr => ?_⟩
  · rw [fullCode, Code.count_define_fill]
    exact H.definedOnce l
  all_goals obtain ⟨c, hc, ho⟩ := hshows m hm
  · have hsp := hc.sp
    rw [hc.cells]
    omega
  all_goals rw [hc.ip] at hi
  · obtain ⟨rest, -, -, v, below, hs⟩ := ho.op (M := H.memory) hi
    refine ⟨m.hp, (hc.top_eq hs).trans (congrArg some hc.hp.symm), ?_⟩
    rw [hc.toInt_hp H.memory_le]
    exact hc.hp_le
  · obtain ⟨line, rest, hline, hip, hsuits, hinstr, hi⟩ := ho.line (M := H.memory) hi
    obtain ⟨l, rfl, rfl⟩ : ∃ l, line = .branch b l ∧ t = H.code.address l := by
      cases line with
      | push n =>
        rw [Line.fill] at hi
        split at hi <;> cases hi
      | branch b' l =>
        cases hi
        exact ⟨l, rfl, rfl⟩
      | define | pushLabel | op => cases hi
    rw [hc.ip, ← hip]
    exact place_lt_address hline hsuits
  · obtain ⟨rest, hline, hip, hsuits⟩ := ho.op (M := H.memory) hi
    rcases hsuits with hback | ⟨f, n, below, hs, hsite, htakes⟩
    · refine absurd ⟨by rwa [hc.ip], H.place (.op .lra :: .op .js :: rest), ?_, instrs_place hback rfl⟩ hr
      rw [hc.ip, ← hip, place_cons hback rfl]
    · obtain ⟨pre, hpre⟩ := hline
      refine ⟨Code.fill H.memory rest, f, n, ⟨Code.fill H.memory pre, ?_, ?_⟩, hsite.fill H.memory_le,
        htakes.fill H.memory_le, ?_⟩
      · rw [fullCode, ← hpre, Code.fill_append]
        rfl
      · rw [hc.ip, ← hip, place_of_suffix hpre, Code.size_fill]
      · rw [hc.top_eq hs, fullCode, Code.address_fill]
        rfl

section

variable {source : List Char} {limits : Limits} {n k : Nat} {c : Compilation} {m m' : Machine} {call : Expr}
  {args : List Expr} {pre post : Code}

/-- **A call leaves a value and changes nothing else.**  Where the code of a call of a function or of a method is run
and the next instruction comes to be run in the same activation, the frame is what it was, the stack has one value
more, and the cells under it are what they were.  What has been called, whether it was found in a frame or in the
dispatch table of the receiver, is a routine that takes as many arguments as the call had put on the stack by the time
it jumped, with the frame pointer, the access link and the address. -/
theorem calls_keep_stack (hb : Text.byteLength source ≤ Text.maxInt32)
    (h : run n source limits = .ok (c, m, .running)) (hcall : call ∈ c.program.nodes)
    (hargs : call.arguments? = some args) (hcode : c.code = pre ++ call.code limits.memory k ++ post)
    (hip : m.ip = pre.size) (hruns : Activation c.code.link.toArray m m')
    (hend : m'.ip = Code.size (pre ++ call.code limits.memory k)) :
    m'.fp = m.fp ∧ m'.sp + 1 = m.sp ∧ (∀ a, m.sp ≤ a → m'.memory.get? a = m.memory.get? a) ∧
    ∃ m₁, Activation c.code.link.toArray m m₁ ∧ m₁.ip + 1 = m'.ip ∧ m₁.sp + (args.length + 3) = m.sp ∧
      m₁.Calls c.code limits.memory args.length m' := by
  obtain ⟨hc, -, -, hall⟩ := of_run h
  obtain ⟨p, H, hprogram, hmemory, -, -, hfull, htracks⟩ := compiled_tracks hb h
  have hdisciplined := H.disciplined htracks
  rw [hfull, hmemory] at hdisciplined
  have hlive : m.Live c.code limits.memory := ⟨n, congrArg Prod.snd (Except.ok.inj ((hall n).symm.trans h))⟩
  have hnodes : ∀ x ∈ c.program.nodes, x.Complete ∧ x.OffsetsFit := by
    obtain ⟨p, ty, hp, hd, -, rfl⟩ := compile_ok hc
    exact fun x hx => ⟨(Program.resolve_complete (Program.nameErrors_eq_nil hd)).1 x hx,
      Program.resolve_fits (offsetsFit_of_parse hp) x hx⟩
  let T : Trip := ⟨c.code, limits.memory, hdisciplined, m, m'⟩
  obtain ⟨⟨hfp, hsp, hcells⟩, m₁, ha, hcalls, hback⟩ : Atop m m.sp 1 m' ∧ T.Called args.length m' :=
    T.call hargs (fun x hx => hnodes x (c.program.nodes_subset hcall hx)) hcode hlive hip hruns hend
  have hsp₁ := hback.sp
  exact ⟨hfp, hsp, hcells, m₁, ha, hback.ip.symm, by omega, hcalls⟩

/-- A source whose method is overridden in the class of the receiver. -/
def twiceSource : List Char :=
  ("let class A () { fun twice: int (x: int) x * 2; } class B extends A () { fun twice: int (x: int) print(x) + x; }" ++
    " var a: A := new B(); in a.twice(21);").toList

theorem twiceSource_keeps_stack : ∃ (c : Compilation) (m m' : Machine) (args : List Expr),
    run 28 twiceSource ⟨100, 80⟩ = .ok (c, m, .running) ∧ c.program.body.arguments? = some args ∧ args.length = 1 ∧
    m'.printed = [some 21] ∧ m'.fp = m.fp ∧ m'.sp + 1 = m.sp ∧
    (∀ a, m.sp ≤ a → m'.memory.get? a = m.memory.get? a) ∧
    ∃ m₁ : Machine, m₁.sp + 4 = m.sp ∧ m₁.Calls c.code 100 1 m' := by
  have hruns : (run 28 twiceSource ⟨100, 80⟩).toOption.any (fun r => decide (r.2.2 = .running) &&
      ((r.1.program.body.arguments?.any fun args => decide (args.length = 1)) &&
        (decide (r.1.code = r.1.code.take 28 ++ r.1.program.body.code 100 0 ++ r.1.code.drop 42) &&
          (decide (r.2.1.ip = Code.size (r.1.code.take 28)) &&
            ((follow r.1.code.link.toArray 34 0 r.2.1).any fun m' => decide (m'.printed = [some 21]) &&
              decide (m'.ip = Code.size (r.1.code.take 28 ++ r.1.program.body.code 100 0))))))) = true := by
    decide +kernel
  obtain ⟨⟨c, m, st⟩, hr, hm⟩ := exists_of_any hruns
  simp only [Bool.and_eq_true, decide_eq_true_eq, Option.any_eq_true] at hm
  obtain ⟨rfl, ⟨args, hargs, hlen⟩, hcode, hip, m', hfollow, hprinted, hend⟩ := hm
  have hbody : c.program.body ∈ c.program.nodes := List.mem_append_right _ c.program.body.mem_nodes
  obtain ⟨hfp, hsp, hcells, m₁, -, -, hsp₁, hcalls⟩ :=
    calls_keep_stack (by decide +kernel) hr hbody hargs hcode hip (comesBack_of_follow 34 hfollow) hend
  rw [hlen] at hsp₁ hcalls
  exact ⟨c, m, m', args, hr, hargs, hlen, hprinted, hfp, hsp, hcells, m₁, hsp₁, hcalls⟩

end

end FoolLang
