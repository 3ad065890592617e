import FoolLang.Proofs.Outlines
/-!
# Faithful — nothing that was written is missing from an outline

In a name there is no blank, and a type that was written is a name or the word for a type, so the parts of what is said
of a node can be told from one another, and its heading tells which node it is.  Programs with the same outline are
therefore the same up to lines, before and after they are resolved (`outline_is_faithful`).
-/
namespace FoolLang

open Text

theorem BinOp.symbol_inj {op op' : BinOp} (h : op.symbol = op'.symbol) : op = op' := by
  have hall : ∀ op, op ∈ [plus, minus, times, div, equal, lessEqual, greaterEqual, and, or] := fun op => by
    cases op <;> decide
  exact List.inj_on_of_nodup_map (by decide) (hall op) (hall op') h

theorem boolText_inj {b b' : Bool} (h : boolText b = boolText b') : b = b' := by
  revert b b'
  decide

/-! ## Names and types -/

theorem Ident.all_of_isProper {x : Ident} (h : x.isProper = true) : ∀ c ∈ x.chars, isNameChar c = true := by
  obtain ⟨c, cs, hchars, hc, hcs, -⟩ := Ident.isProper_iff.1 h
  rw [hchars]
  exact List.forall_mem_cons.2 ⟨isNameChar_of_isLetter hc, hcs⟩

theorem stop_blank (t : List Char) : ∀ c ∈ (' ' :: t).head?, ¬isNameChar c = true := fun c hc => by
  cases hc
  decide

/-- No name is the word for a type. -/
theorem Ident.chars_ne_spelling {x : Ident} (h : x.isProper = true) {m : Mark} (hm : m ∈ Mark.words) :
    x.chars ≠ m.spelling := fun heq => by
  obtain ⟨-, -, -, -, -, hwords⟩ := Ident.isProper_iff.1 h
  exact hwords m hm heq.symm

/-! ## Lists and parts -/

/-- Where `f` tells what `g` does, the list of the former tells that of the latter. -/
theorem map_eq_of_map_eq {α β γ : Type} {f : α → β} {g : α → γ} {P : α → Prop}
    (h : ∀ {a b}, P a → P b → f a = f b → g a = g b) : ∀ {as bs : List α}, (∀ a ∈ as, P a) → (∀ b ∈ bs, P b) →
    as.map f = bs.map f → as.map g = bs.map g
  | [], [], _, _, _ => rfl
  | [], _ :: _, _, _, heq | _ :: _, [], _, _, heq => by cases heq
  | _ :: _, _ :: _, has, hbs, heq => by
    obtain ⟨ha, has⟩ := List.forall_mem_cons.1 has
    obtain ⟨hb, hbs⟩ := List.forall_mem_cons.1 hbs
    exact congrArg₂ List.cons (h ha hb (List.cons.inj heq).1) (map_eq_of_map_eq h has hbs (List.cons.inj heq).2)

theorem forall_of_map_eq_self {α : Type} {f : α → α} {as : List α} (h : as.map f = as) : ∀ a ∈ as, f a = a :=
  List.map_inj_left.1 (h.trans (List.map_id as).symm)

/-- The order of what lies in a node: other parts first, then declarations, then expressions. -/
def Heading.rank : Heading → Nat
  | var | func => 1
  | param | field | method | cls => 0
  | _ => 2

theorem Expr.rank_nest (e : Expr) : e.nest.heading.rank = 2 := by cases e <;> rfl

theorem rank_localNests (ds : List Dec) : ∀ t ∈ localNests ds, t.heading.rank = 1 := by
  induction ds with
  | nil => exact List.forall_mem_nil _
  | cons d ds ih => exact List.forall_mem_cons.2 ⟨by cases d <;> rfl, ih⟩

theorem rank_map {α : Type} {f : α → Nest} {h : Heading} (hf : ∀ a, (f a).heading = h) (hh : h.rank = 0) (as : List α) :
    ∀ t ∈ as.map f, t.heading.rank = 0 := fun t ht => by
  obtain ⟨a, -, rfl⟩ := List.mem_map.1 ht
  rw [hf, hh]

/-- The first parts of a node, the declarations and the body can be told from one another. -/
theorem parts_inj {a a' : List Nest} {ds ds' : List Dec} {e e' : Expr} (ha : ∀ t ∈ a, t.heading.rank = 0)
    (ha' : ∀ t ∈ a', t.heading.rank = 0) (h : a ++ (localNests ds ++ [e.nest]) = a' ++ (localNests ds' ++ [e'.nest])) :
    a = a' ∧ localNests ds = localNests ds' ∧ e.nest = e'.nest := by
  have hbody : ∀ e : Expr, ∀ t ∈ [e.nest].head?, ¬t.heading.rank = 1 := fun e t ht => by
    cases ht
    rw [e.rank_nest]
    decide
  have hrest : ∀ (ds : List Dec) (e : Expr), ∀ t ∈ (localNests ds ++ [e.nest]).head?, ¬t.heading.rank = 0 :=
    fun ds e t ht => by
      rcases List.mem_append.1 (List.mem_of_mem_head? ht) with ht | ht
      · rw [rank_localNests ds t ht]
        decide
      · rw [List.mem_singleton.1 ht, e.rank_nest]
        decide
  obtain ⟨hfirst, h⟩ := append_inj_of_stop ha ha' (hrest ds e) (hrest ds' e') h
  obtain ⟨hlocals, h⟩ := append_inj_of_stop (rank_localNests ds) (rank_localNests ds') (hbody e) (hbody e') h
  exact ⟨hfirst, hlocals, (List.cons.inj h).1⟩

section

variable {r : Relabel}

/-! A part of a program is clear if its names are kept under `r` and its types were written. -/

def Param.Clear (r : Relabel) (p : Param) : Prop := p.relabel r = p ∧ p.ty.Writable

def Field.Clear (r : Relabel) (f : Field) : Prop := f.relabel r = f ∧ f.ty.Writable

def Dec.Clear (r : Relabel) (d : Dec) : Prop := d.relabel r = d ∧ ∀ t ∈ d.types, t.Writable

def LocalsClear (r : Relabel) (ds : List Dec) : Prop := relabelLocals r ds = ds ∧ ∀ t ∈ localTypes ds, t.Writable

def Method.Clear (r : Relabel) (m : Method) : Prop := m.relabel r = m ∧ ∀ t ∈ m.types, t.Writable

def Class.Clear (r : Relabel) (c : Class) : Prop := c.relabel r = c ∧ ∀ t ∈ c.types, t.Writable

def Program.Clear (r : Relabel) (p : Program) : Prop := p.relabel r = p ∧ ∀ t ∈ p.types, t.Writable

theorem LocalsClear.cons {d : Dec} {ds : List Dec} (h : LocalsClear r (d :: ds)) : d.Clear r ∧ LocalsClear r ds := by
  obtain ⟨hd, hds⟩ := List.cons.inj h.1
  obtain ⟨hwd, hwds⟩ := List.forall_mem_append.1 h.2
  exact ⟨⟨hd, hwd⟩, hds, hwds⟩

theorem Method.Clear.params {m : Method} (h : m.Clear r) : ∀ p ∈ m.params, p.Clear r := fun p hp =>
  ⟨forall_of_map_eq_self (congrArg Method.params h.1) p hp,
    h.2 p.ty (List.mem_cons_of_mem _ (List.mem_append_left _ (List.mem_map_of_mem hp)))⟩

theorem Method.Clear.locals {m : Method} (h : m.Clear r) : LocalsClear r m.locals := by
  refine ⟨?_, fun t ht => h.2 t (List.mem_cons_of_mem _ (List.mem_append_right _ ht))⟩
  rw [relabelLocals_eq]
  exact congrArg Method.locals h.1

theorem Class.Clear.fields {c : Class} (h : c.Clear r) : ∀ f ∈ c.fields, f.Clear r := fun f hf =>
  ⟨forall_of_map_eq_self (congrArg Class.fields h.1) f hf, h.2 f.ty (List.mem_append_left _ (List.mem_map_of_mem hf))⟩

theorem Class.Clear.methods {c : Class} (h : c.Clear r) : ∀ m ∈ c.methods, m.Clear r := fun m hm =>
  ⟨forall_of_map_eq_self (congrArg Class.methods h.1) m hm, fun t ht =>
    h.2 t (List.mem_append_right _ (List.mem_flatMap_of_mem hm ht))⟩

theorem Program.Clear.letIn {cs : List Class} {ds : List Dec} {body : Expr} (h : (Program.letIn cs ds body).Clear r) :
    (∀ c ∈ cs, c.Clear r) ∧ LocalsClear r ds ∧ body.relabel r = body := by
  obtain ⟨hcs, hds, hbody⟩ := letIn.inj h.1
  obtain ⟨hwcs, hwds⟩ := List.forall_mem_append.1 h.2
  rw [← relabelLocals_eq] at hds
  exact ⟨fun c hc => ⟨forall_of_map_eq_self hcs c hc, fun t ht => hwcs t (List.mem_flatMap_of_mem hc ht)⟩,
    ⟨hds, hwds⟩, hbody⟩

/-- A function is as clear as a method would be. -/
theorem Dec.Clear.method {l : Nat} {x : Ident} {ret : Ty} {ps : List Param} {ls : List Dec} {body : Expr}
    (h : (Dec.func l x ret ps ls body).Clear r) : (Method.mk l x ret ps ls body 0).Clear r := by
  obtain ⟨hl, hx, hret, hps, hls, hbody⟩ := Dec.func.inj h.1
  rw [relabelLocals_eq] at hls
  exact ⟨(Method.mk.injEq ..).mpr ⟨hl, hx, hret, hps, hls, hbody, rfl⟩, h.2⟩

variable (hr : ∀ x, r.name x = x → x.isProper = true)

include hr

theorem name_append_inj {x y : Ident} (hx : r.name x = x) (hy : r.name y = y) {u v : List Char}
    (hu : ∀ c ∈ u.head?, ¬isNameChar c = true) (hv : ∀ c ∈ v.head?, ¬isNameChar c = true)
    (h : x.chars ++ u = y.chars ++ v) : x = y ∧ u = v := by
  obtain ⟨hchars, hrest⟩ :=
    append_inj_of_stop (Ident.all_of_isProper (hr x hx)) (Ident.all_of_isProper (hr y hy)) hu hv h
  exact ⟨congrArg Ident.mk hchars, hrest⟩

theorem name_blank_inj {x y : Ident} (hx : r.name x = x) (hy : r.name y = y) {u v : List Char}
    (h : x.chars ++ ' ' :: u = y.chars ++ ' ' :: v) : x = y ∧ u = v := by
  obtain ⟨hname, hrest⟩ := name_append_inj hr hx hy (stop_blank u) (stop_blank v) h
  exact ⟨hname, (List.cons.inj hrest).2⟩

theorem Use.id_of_detail {u u' : Use} (hu : u.relabel r = u) (hu' : u'.relabel r = u') (h : u.detail = u'.detail) :
    u.id = u'.id := by
  rw [detail, detail, List.append_assoc, List.append_assoc] at h
  exact (name_blank_inj hr (congrArg Use.id hu) (congrArg Use.id hu') h).1

theorem Ty.text_inj {t t' : Ty} (ht : t.relabel r = t) (ht' : t'.relabel r = t') (hw : t.Writable) (hw' : t'.Writable)
    (h : t.text = t'.text) : t = t' := by
  have hint : ∀ c, (Ty.ref c).relabel r = .ref c → c.chars ≠ "int".toList := fun c hc =>
    Ident.chars_ne_spelling (hr c (Ty.ref.inj hc)) (m := .kwInt) (by decide)
  have hbool : ∀ c, (Ty.ref c).relabel r = .ref c → c.chars ≠ "bool".toList := fun c hc =>
    Ident.chars_ne_spelling (hr c (Ty.ref.inj hc)) (m := .kwBool) (by decide)
  obtain ⟨_, hw⟩ := hw
  obtain ⟨_, hw'⟩ := hw'
  cases hw with
  | int =>
    cases hw' with
    | int => rfl
    | bool => exact absurd h (by decide)
    | ref _ c => exact absurd h.symm (hint c ht')
  | bool =>
    cases hw' with
    | int => exact absurd h (by decide)
    | bool => rfl
    | ref _ c => exact absurd h.symm (hbool c ht')
  | ref _ c =>
    cases hw' with
    | int => exact absurd h (hint c ht)
    | bool => exact absurd h (hbool c ht)
    | ref _ c' => exact congrArg Ty.ref (congrArg Ident.mk h)

theorem Ty.all_text {t : Ty} (ht : t.relabel r = t) (hw : t.Writable) : ∀ c ∈ t.text, isNameChar c = true := by
  obtain ⟨_, hw⟩ := hw
  cases hw with
  | int | bool => exact List.all_eq_true.mp rfl
  | ref _ c => exact Ident.all_of_isProper (hr c (Ty.ref.inj ht))

theorem Ty.text_append_inj {t t' : Ty} (ht : t.relabel r = t) (ht' : t'.relabel r = t') (hw : t.Writable)
    (hw' : t'.Writable) {u v : List Char} (hu : ∀ c ∈ u.head?, ¬isNameChar c = true)
    (hv : ∀ c ∈ v.head?, ¬isNameChar c = true) (h : t.text ++ u = t'.text ++ v) : t = t' := by
  obtain ⟨htext, -⟩ := append_inj_of_stop (Ty.all_text hr ht hw) (Ty.all_text hr ht' hw') hu hv h
  exact Ty.text_inj hr ht ht' hw hw' htext

/-! ## Expressions -/

omit hr in
mutual

/-- **An expression can be told from its nest.** -/
theorem Expr.written_of_nest (hr : ∀ x, r.name x = x → x.isProper = true) :
    ∀ {e e' : Expr}, e.relabel r = e → e'.relabel r = e' → e.nest = e'.nest →
    e.written = e'.written
  | .int _ n, e', _, _, heq => by
    cases e' with
    | int _ n' =>
      have hn := signedDecimal_inj (Option.some.inj (Nest.node.inj heq).2.1)
      exact congrArg (Expr.int 0) (Int32.toInt_inj.1 hn)
    | _ => cases heq
  | .bool _ b, e', _, _, heq => by
    cases e' with
    | bool _ b' => exact congrArg (Expr.bool 0) (boolText_inj (Option.some.inj (Nest.node.inj heq).2.1))
    | _ => cases heq
  | .null _, e', _, _, heq => by
    cases e' with
    | null => rfl
    | _ => cases heq
  | .binary _ op a b, e', h, h', heq => by
    cases e' with
    | binary _ op' a' b' =>
      obtain ⟨-, -, ha, hb⟩ := Expr.binary.inj h
      obtain ⟨-, -, ha', hb'⟩ := Expr.binary.inj h'
      obtain ⟨-, hdetail, hparts⟩ := Nest.node.inj heq
      obtain ⟨hleft, hparts⟩ := List.cons.inj hparts
      rw [Expr.written, Expr.written, BinOp.symbol_inj (Option.some.inj hdetail), Expr.written_of_nest hr ha ha' hleft,
        Expr.written_of_nest hr hb hb' (List.cons.inj hparts).1]
    | _ => cases heq
  | .not _ a, e', h, h', heq => by
    cases e' with
    | not _ a' =>
      have hpart := (List.cons.inj (Nest.node.inj heq).2.2).1
      exact congrArg (Expr.not 0) (Expr.written_of_nest hr (Expr.not.inj h).2 (Expr.not.inj h').2 hpart)
    | _ => cases heq
  | .cond _ c t e, e', h, h', heq => by
    cases e' with
    | cond _ c' t' e' =>
      obtain ⟨-, hc, ht, he⟩ := Expr.cond.inj h
      obtain ⟨-, hc', ht', he'⟩ := Expr.cond.inj h'
      obtain ⟨htest, hparts⟩ := List.cons.inj (Nest.node.inj heq).2.2
      obtain ⟨hyes, hparts⟩ := List.cons.inj hparts
      rw [Expr.written, Expr.written, Expr.written_of_nest hr hc hc' htest, Expr.written_of_nest hr ht ht' hyes,
        Expr.written_of_nest hr he he' (List.cons.inj hparts).1]
    | _ => cases heq
  | .print _ a, e', h, h', heq => by
    cases e' with
    | print _ a' =>
      have hpart := (List.cons.inj (Nest.node.inj heq).2.2).1
      exact congrArg (Expr.print 0) (Expr.written_of_nest hr (Expr.print.inj h).2 (Expr.print.inj h').2 hpart)
    | _ => cases heq
  | .id _ u, e', h, h', heq => by
    cases e' with
    | id _ u' =>
      have hid := Use.id_of_detail hr (Expr.id.inj h).2 (Expr.id.inj h').2 (Option.some.inj (Nest.node.inj heq).2.1)
      rw [Expr.written, Expr.written, hid]
    | _ => cases heq
  | .call _ u args, e', h, h', heq => by
    cases e' with
    | call _ u' args' =>
      obtain ⟨-, hu, hargs⟩ := Expr.call.inj h
      obtain ⟨-, hu', hargs'⟩ := Expr.call.inj h'
      obtain ⟨-, hdetail, hparts⟩ := Nest.node.inj heq
      rw [Expr.written, Expr.written, Use.id_of_detail hr hu hu' (Option.some.inj hdetail),
        writtenArgs_of_nests hr hargs hargs' (List.cons.inj hparts).2]
    | _ => cases heq
  | .send _ u m entry args, e', h, h', heq => by
    cases e' with
    | send _ u' m' entry' args' =>
      obtain ⟨-, hu, -, -, hargs⟩ := Expr.send.inj h
      obtain ⟨-, hu', -, -, hargs'⟩ := Expr.send.inj h'
      obtain ⟨-, hdetail, hparts⟩ := Nest.node.inj heq
      obtain ⟨hmethod, hparts⟩ := List.cons.inj (List.cons.inj hparts).2
      have hm : m = m' := congrArg Ident.mk (Option.some.inj (Nest.node.inj hmethod).2.1)
      rw [Expr.written, Expr.written, Use.id_of_detail hr hu hu' (Option.some.inj hdetail), hm,
        writtenArgs_of_nests hr hargs hargs' hparts]
    | _ => cases heq
  | .new _ c entry args, e', h, h', heq => by
    cases e' with
    | new _ c' entry' args' =>
      obtain ⟨-, -, -, hargs⟩ := Expr.new.inj h
      obtain ⟨-, -, -, hargs'⟩ := Expr.new.inj h'
      obtain ⟨-, hdetail, hparts⟩ := Nest.node.inj heq
      have hc : c = c' := congrArg Ident.mk (Option.some.inj hdetail)
      rw [Expr.written, Expr.written, hc, writtenArgs_of_nests hr hargs hargs' (List.cons.inj hparts).2]
    | _ => cases heq

theorem writtenArgs_of_nests (hr : ∀ x, r.name x = x → x.isProper = true) :
    ∀ {es es' : List Expr}, relabelArgs r es = es → relabelArgs r es' = es' →
    argNests es = argNests es' → writtenArgs es = writtenArgs es'
  | [], [], _, _, _ => rfl
  | [], _ :: _, _, _, heq | _ :: _, [], _, _, heq => by cases heq
  | _ :: _, _ :: _, h, h', heq =>
    congrArg₂ List.cons (Expr.written_of_nest hr (List.cons.inj h).1 (List.cons.inj h').1 (List.cons.inj heq).1)
      (writtenArgs_of_nests hr (List.cons.inj h).2 (List.cons.inj h').2 (List.cons.inj heq).2)

end

/-! ## Declarations -/

theorem Param.written_of_nest {p p' : Param} (h : p.Clear r) (h' : p'.Clear r) (heq : p.nest = p'.nest) :
    p.written = p'.written := by
  obtain ⟨-, hname, hty⟩ := Param.mk.inj h.1
  obtain ⟨-, hname', hty'⟩ := Param.mk.inj h'.1
  obtain ⟨hid, htext⟩ := name_blank_inj hr hname hname' (Option.some.inj (Nest.node.inj heq).2.1)
  rw [written, written, hid, Ty.text_inj hr hty hty' h.2 h'.2 htext]

/-- **A routine can be told from its nest**, whatever is said behind its signature, if its local declarations can. -/
theorem Method.written_of_parts {m m' : Method} (h : m.Clear r) (h' : m'.Clear r)
    (hlocals : localNests m.locals = localNests m'.locals → writtenLocals m.locals = writtenLocals m'.locals)
    {u u' : List Char} (hu : ∀ c ∈ u.head?, ¬isNameChar c = true) (hu' : ∀ c ∈ u'.head?, ¬isNameChar c = true)
    (hdetail : m.id.chars ++ ' ' :: (m.signature.text ++ u) = m'.id.chars ++ ' ' :: (m'.signature.text ++ u'))
    (hparts : m.params.map Param.nest ++ (localNests m.locals ++ [m.body.nest]) =
      m'.params.map Param.nest ++ (localNests m'.locals ++ [m'.body.nest])) : m.written = m'.written := by
  obtain ⟨-, hx, hret, -, -, hbody, -⟩ := Method.mk.inj h.1
  obtain ⟨-, hx', hret', -, -, hbody', -⟩ := Method.mk.inj h'.1
  obtain ⟨hps, hls, hvalue⟩ := parts_inj (rank_map (h := .param) (fun _ => rfl) rfl m.params)
    (rank_map (h := .param) (fun _ => rfl) rfl m'.params) hparts
  have hparams := map_eq_of_map_eq (Param.written_of_nest hr) h.params h'.params hps
  have htypes : m.params.map Param.ty = m'.params.map Param.ty := by rw [← map_ty_written, hparams, map_ty_written]
  obtain ⟨hid, htext⟩ := name_blank_inj hr hx hx' hdetail
  -- with the same parameters, what is left of the signatures is what they return
  rw [signature, signature, signatureOf, signatureOf, htypes, Signature.text, Signature.text, List.append_assoc,
    List.append_assoc _ m'.ret.text] at htext
  have hreturn := Ty.text_append_inj hr hret hret' (h.2 _ List.mem_cons_self) (h'.2 _ List.mem_cons_self) hu hu'
    (List.append_cancel_left htext)
  rw [written, written, hid, hreturn, hparams, hlocals hls, Expr.written_of_nest hr hbody hbody' hvalue]

omit hr in
mutual

/-- **A declaration can be told from its nest.** -/
theorem Dec.written_of_nest (hr : ∀ x, r.name x = x → x.isProper = true) :
    ∀ {x x' : Dec}, x.Clear r → x'.Clear r → x.nest = x'.nest → x.written = x'.written
  | .var _ x ty v, x', h, h', heq => by
    cases x' with
    | var _ x' ty' v' =>
      obtain ⟨-, hx, hty, hv⟩ := Dec.var.inj h.1
      obtain ⟨-, hx', hty', hv'⟩ := Dec.var.inj h'.1
      obtain ⟨-, hdetail, hparts⟩ := Nest.node.inj heq
      obtain ⟨hid, htext⟩ := name_blank_inj hr hx hx' (Option.some.inj hdetail)
      have htype := Ty.text_inj hr hty hty' (h.2 ty List.mem_cons_self) (h'.2 ty' List.mem_cons_self) htext
      rw [Dec.written, Dec.written, hid, htype, Expr.written_of_nest hr hv hv' (List.cons.inj hparts).1]
    | func => cases heq
  | .func l x ret ps ls body, x', h, h', heq => by
    cases x' with
    | var => cases heq
    | func l' x' ret' ps' ls' body' =>
      obtain ⟨-, hdetail, hparts⟩ := Nest.node.inj heq
      have hend : ∀ c ∈ ([] : List Char).head?, ¬isNameChar c = true := nofun
      have hlocals := writtenLocals_of_nests hr h.method.locals h'.method.locals
      have hroutine := Method.written_of_parts hr h.method h'.method hlocals hend hend
        (by rw [List.append_nil, List.append_nil]; exact Option.some.inj hdetail) hparts
      exact congrArg (fun m : Method => Dec.func m.line m.id m.ret m.params m.locals m.body) hroutine

theorem writtenLocals_of_nests (hr : ∀ x, r.name x = x → x.isProper = true) :
    ∀ {xs xs' : List Dec}, LocalsClear r xs → LocalsClear r xs' →
    localNests xs = localNests xs' → writtenLocals xs = writtenLocals xs'
  | [], [], _, _, _ => rfl
  | [], _ :: _, _, _, heq | _ :: _, [], _, _, heq => by cases heq
  | _ :: _, _ :: _, h, h', heq =>
    congrArg₂ List.cons (Dec.written_of_nest hr h.cons.1 h'.cons.1 (List.cons.inj heq).1)
      (writtenLocals_of_nests hr h.cons.2 h'.cons.2 (List.cons.inj heq).2)

end

/-! ## Programs -/

theorem Field.written_of_nest {f f' : Field} (h : f.Clear r) (h' : f'.Clear r) (heq : f.nest = f'.nest) :
    f.written = f'.written := by
  obtain ⟨-, hname, hty, -⟩ := Field.mk.inj h.1
  obtain ⟨-, hname', hty', -⟩ := Field.mk.inj h'.1
  obtain ⟨hid, htext⟩ := name_blank_inj hr hname hname' (Option.some.inj (Nest.node.inj heq).2.1)
  rw [written, written, hid, Ty.text_append_inj hr hty hty' h.2 h'.2 (stop_blank _) (stop_blank _) htext]

theorem Method.written_of_nest {m m' : Method} (h : m.Clear r) (h' : m'.Clear r) (heq : m.nest = m'.nest) :
    m.written = m'.written := by
  obtain ⟨-, hdetail, hparts⟩ := Nest.node.inj heq
  exact Method.written_of_parts hr h h' (writtenLocals_of_nests hr h.locals h'.locals) (stop_blank _) (stop_blank _)
    (Option.some.inj hdetail) hparts

/-- What is said of a class tells its name and its superclass. -/
theorem Class.of_detail {c c' : Class} (h : c.relabel r = c) (h' : c'.relabel r = c') (heq : c.detail = c'.detail) :
    c.id = c'.id ∧ c.super = c'.super := by
  obtain ⟨-, hx, -⟩ := Class.mk.inj h
  obtain ⟨-, hx', -⟩ := Class.mk.inj h'
  have hstop : ∀ s : Option Ident, ∀ d ∈ ((s.map (" extends ".toList ++ ·.chars)).getD []).head?,
      ¬isNameChar d = true := fun s d hd => by
    cases s with
    | none => cases hd
    | some s => exact stop_blank _ d hd
  have hinj : ∀ s s' : Option Ident, (s.map (" extends ".toList ++ ·.chars)).getD [] =
      (s'.map (" extends ".toList ++ ·.chars)).getD [] → s = s' := fun s s' hs => by
    cases s with
    | none =>
      cases s' with
      | none => rfl
      | some => cases hs
    | some s =>
      cases s' with
      | none => cases hs
      | some s' => exact congrArg (some ∘ Ident.mk) (List.append_cancel_left hs)
  obtain ⟨hid, hsuper⟩ := name_append_inj hr hx hx' (hstop c.super) (hstop c'.super) heq
  exact ⟨hid, hinj _ _ hsuper⟩

theorem Class.written_of_nest {c c' : Class} (h : c.Clear r) (h' : c'.Clear r) (heq : c.nest = c'.nest) :
    c.written = c'.written := by
  have hfield : ∀ fs : List Field, ∀ t ∈ fs.map Field.nest, t.heading = .field := fun fs =>
    List.forall_mem_map.2 fun _ _ => rfl
  have hmethod : ∀ ms : List Method, ∀ t ∈ (ms.map Method.nest).head?, ¬t.heading = .field := fun ms t ht => by
    obtain ⟨m, -, rfl⟩ := List.mem_map.1 (List.mem_of_mem_head? ht)
    exact nofun
  obtain ⟨-, hdetail, hparts⟩ := Nest.node.inj heq
  obtain ⟨hid, hsuper⟩ := Class.of_detail hr h.1 h'.1 (Option.some.inj hdetail)
  obtain ⟨hfs, hms⟩ := append_inj_of_stop (hfield _) (hfield _) (hmethod _) (hmethod _) hparts
  rw [written, written, hid, hsuper, map_eq_of_map_eq (Field.written_of_nest hr) h.fields h'.fields hfs,
    map_eq_of_map_eq (Method.written_of_nest hr) h.methods h'.methods hms]

/-- **A program as it was written can be told from its outline**, resolved or not. -/
theorem Program.written_of_render {p q : Program} (hp : p.Clear r) (hq : q.Clear r) (h : p.render = q.render) :
    p.written = q.written := by
  have heq := nest_of_render hr hp.1 hq.1 h
  cases p with
  | expr body =>
    cases q with
    | letIn => cases heq
    | expr body' =>
      have hbody := (List.cons.inj (Nest.node.inj heq).2.2).1
      exact congrArg expr (Expr.written_of_nest hr (expr.inj hp.1) (expr.inj hq.1) hbody)
  | letIn cs ds body =>
    cases q with
    | expr => cases heq
    | letIn cs' ds' body' =>
      obtain ⟨hcs, hds, hbody⟩ := hp.letIn
      obtain ⟨hcs', hds', hbody'⟩ := hq.letIn
      obtain ⟨hclasses, hlocals, hmain⟩ := parts_inj (rank_map (h := .cls) (fun _ => rfl) rfl cs)
        (rank_map (h := .cls) (fun _ => rfl) rfl cs') (Nest.node.inj heq).2.2
      rw [written, written, map_eq_of_map_eq (Class.written_of_nest hr) hcs hcs' hclasses,
        writtenLocals_of_nests hr hds hds' hlocals, Expr.written_of_nest hr hbody hbody' hmain]

end

/-! ## Compiling -/

def CompileError.relabel (r : Relabel) : CompileError → CompileError
  | .frontEnd errors => .frontEnd (errors.map (Diagnostic.relabel r))
  | e => e

/-- What a program compiles to, or its errors, under other names and on other lines. -/
def relabelCompiled (r : Relabel) : Except CompileError Compilation → Except CompileError Compilation
  | .ok c => .ok ⟨c.program.relabel r, c.type.relabel r, c.code⟩
  | .error e => .error (e.relabel r)

/-- **A program compiles alike under other names and on other lines.** -/
theorem Program.compile_relabel {r : Relabel} (hr : Function.Injective r.name) (p : Program) (memory : Nat) :
    (p.relabel r).compile memory = relabelCompiled r (p.compile memory) := by
  rcases p.compile_cases memory with ⟨ty, hd, hty, hc⟩ | ⟨errors, hc⟩
  · have hdiagnostics : (p.relabel r).diagnostics = [] := by rw [diagnostics_relabel hr, hd, List.map_nil]
    have htype : (p.relabel r).mainType = .ok (ty.relabel r) := by rw [mainType_relabel hr, hty]; rfl
    have hresolve := resolve_relabel hr p
    have hcode : p.resolve.code memory = (p.relabel r).resolve.code memory := by
      rw [hresolve, code_relabel memory hr]
    rw [hc]
    exact compile_ok_iff.2 ⟨hdiagnostics, htype, hresolve.symm, hcode⟩
  · obtain ⟨rfl, hne⟩ := compile_error_iff.1 hc
    have hdiagnostics := diagnostics_relabel hr p
    rw [hc]
    exact compile_error_iff.2 ⟨hdiagnostics.symm, by rwa [hdiagnostics, ne_eq, List.map_eq_nil_iff]⟩

/-- **There is a change of names that leaves given proper names and no improper one.**  Programs whose names are among
them are left as they are, before and after resolving. -/
theorem exists_clear (xs : List Ident) (hproper : ∀ x ∈ xs, x.isProper = true) :
    ∃ r : Relabel, (∀ x, r.name x = x → x.isProper = true) ∧
      ∀ {source : List Char} {p : Program}, parse source = .ok p → (∀ x ∈ names source, x ∈ xs) →
        p.Clear r ∧ p.resolve.Clear r := by
  refine ⟨⟨id, spread xs id⟩, fun x hx => ?_, fun {source p} hp hs => ?_⟩
  · by_contra hno
    have hempty := spread_of_kept (ρ := fun _ => ⟨[]⟩) hx
    rw [spread, if_neg fun hm => hno (hproper x hm)] at hempty
    cases hempty
  · have hinj : Function.Injective (spread xs id) := spread_injective (fun _ _ _ _ h => h) hproper
    have hother : p.relabel ⟨id, spread xs id⟩ = p.relabel ⟨id, id⟩ :=
      relabel_eq_of_parse hp rfl fun x hx => spread_of_mem (hs x hx)
    have hkept : p.relabel ⟨id, spread xs id⟩ = p := hother.trans (relabel_id p hp)
    have hresolved : p.resolve.relabel ⟨id, spread xs id⟩ = p.resolve := by
      rw [← Program.resolve_relabel hinj, hkept]
    have htypes : p.resolve.types = p.types := by
      rw [← Program.types_written, p.written_resolve, Program.types_written]
    have hwritable := (written_of_parse hp).2
    exact ⟨⟨hkept, hwritable⟩, hresolved, htypes ▸ hwritable⟩

/-- **The outline is faithful.**  Two parsed programs with the same outline, both as they were read or both resolved,
are the same up to lines, before and after resolving.  They compile alike: to the same code and the same type, from
resolved programs that are the same up to lines, or to errors that are the same up to lines. -/
theorem outline_is_faithful {s₁ s₂ : List Char} {p₁ p₂ : Program} (h₁ : parse s₁ = .ok p₁) (h₂ : parse s₂ = .ok p₂)
    (h : p₁.render = p₂.render ∨ p₁.resolve.render = p₂.resolve.render) :
    p₁.relabel .oneLine = p₂.relabel .oneLine ∧ p₁.resolve.relabel .oneLine = p₂.resolve.relabel .oneLine ∧
    ∀ memory, relabelCompiled .oneLine (compile s₁ memory) = relabelCompiled .oneLine (compile s₂ memory) := by
  obtain ⟨r, hr, hclear⟩ := exists_clear (names s₁ ++ names s₂) fun x hx =>
    (List.mem_append.1 hx).elim isProper_of_mem_names isProper_of_mem_names
  obtain ⟨hp₁, hq₁⟩ := hclear h₁ fun _ => List.mem_append_left _
  obtain ⟨hp₂, hq₂⟩ := hclear h₂ fun _ => List.mem_append_right _
  have hwritten : p₁.written = p₂.written := by
    rcases h with h | h
    · exact Program.written_of_render hr hp₁ hp₂ h
    · rw [← p₁.written_resolve, ← p₂.written_resolve]
      exact Program.written_of_render hr hq₁ hq₂ h
  have hsame : p₁.relabel .oneLine = p₂.relabel .oneLine := by
    rw [← (written_of_parse h₁).1, hwritten, (written_of_parse h₂).1]
  have hname : Function.Injective Relabel.oneLine.name := fun _ _ h => h
  refine ⟨hsame, ?_, fun memory => ?_⟩
  · rw [← Program.resolve_relabel hname, hsame, Program.resolve_relabel hname]
  · rw [compile_of_parse h₁, compile_of_parse h₂, ← Program.compile_relabel hname, hsame,
      Program.compile_relabel hname]

/-- A sum on one line. -/
def sumSource : List Char := "print(1 + 2 * 3);".toList

/-- The same with parentheses that make no difference, on two lines. -/
def bracketedSource : List Char := "print((1) +\n  (2 * 3));".toList

theorem sumSource_bracketed : ∃ p₁ p₂, parse sumSource = .ok p₁ ∧ parse bracketedSource = .ok p₂ ∧
    p₁.resolve.render = p₂.resolve.render ∧ p₁.relabel .oneLine = p₂.relabel .oneLine ∧
      relabelCompiled .oneLine (compile sumSource 100) = relabelCompiled .oneLine (compile bracketedSource 100) := by
  have hparsed : ((parse sumSource).toOption.any fun p₁ => (parse bracketedSource).toOption.any fun p₂ =>
      decide (p₁.resolve.render = p₂.resolve.render)) = true := by decide +kernel
  obtain ⟨p₁, h₁, hparsed⟩ := exists_of_any hparsed
  obtain ⟨p₂, h₂, hrender⟩ := exists_of_any hparsed
  have hrender := of_decide_eq_true hrender
  obtain ⟨hsame, -, hcompiled⟩ := outline_is_faithful h₁ h₂ (.inr hrender)
  exact ⟨p₁, p₂, h₁, h₂, hrender, hsame, hcompiled 100⟩

end FoolLang
