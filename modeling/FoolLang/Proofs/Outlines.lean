import FoolLang.Proofs.Nests
import FoolLang.Proofs.Written
/-!
# Outlines — the outline of a program shows the program

The lines of an outline lie in one another as the nodes of the program do, each with the heading of its node
(`Program.outline_eq_nest`).
-/
namespace FoolLang

open Text

/-! ## The nest of a program -/

/-- What is said of a use. -/
def Use.detail (u : Use) : List Char := u.id.chars ++ " at nestlev ".toList ++ decimal u.level

def Nest.ofEntry : Option Entry → Nest
  | none => .node .entry (some "unresolved".toList) []
  | some e =>
    .node .entry (some ("nestlev ".toList ++ decimal e.level ++ " type ".toList ++ e.ty.text ++ " offset ".toList
      ++ signedDecimal e.offset)) []

mutual

def Expr.nest : Expr → Nest
  | .int _ n => .node .int (some (signedDecimal n.toInt)) []
  | .bool _ b => .node .bool (some (boolText b)) []
  | .null _ => .node .empty none []
  | .binary _ op a b => .node .binary (some op.symbol) [a.nest, b.nest]
  | .not _ a => .node .not none [a.nest]
  | .cond _ c t e => .node .cond none [c.nest, t.nest, e.nest]
  | .print _ a => .node .print none [a.nest]
  | .id _ u => .node .id (some u.detail) [.ofEntry u.entry]
  | .call _ u args => .node .call (some u.detail) (.ofEntry u.entry :: argNests args)
  | .send _ u m entry args =>
    .node .classCall (some u.detail)
      (.ofEntry u.entry :: .node .method (some m.chars) [.ofEntry entry] :: argNests args)
  | .new _ c entry args => .node .new (some c.chars) (.ofEntry entry :: argNests args)

def argNests : List Expr → List Nest
  | [] => []
  | e :: es => e.nest :: argNests es

end

def Param.nest (p : Param) : Nest := .node .param (some (p.id.chars ++ ' ' :: p.ty.text)) []

mutual

def Dec.nest : Dec → Nest
  | .var _ x ty v => .node .var (some (x.chars ++ ' ' :: ty.text)) [v.nest]
  | .func _ x ret ps ls body =>
    .node .func (some (x.chars ++ ' ' :: (signatureOf ps ret).text))
      (ps.map Param.nest ++ (localNests ls ++ [body.nest]))

def localNests : List Dec → List Nest
  | [] => []
  | d :: ds => d.nest :: localNests ds

end

def Field.nest (f : Field) : Nest :=
  .node .field (some (f.id.chars ++ ' ' :: (f.ty.text ++ (" offset ".toList ++ signedDecimal f.offset)))) []

def Method.nest (m : Method) : Nest :=
  .node .method (some (m.id.chars ++ ' ' :: (m.signature.text ++ (" offset ".toList ++ signedDecimal m.offset))))
    (m.params.map Param.nest ++ (localNests m.locals ++ [m.body.nest]))

def Class.detail (c : Class) : List Char := c.id.chars ++ (c.super.map (" extends ".toList ++ ·.chars)).getD []

def Class.nest (c : Class) : Nest :=
  .node .cls (some c.detail) (c.fields.map Field.nest ++ c.methods.map Method.nest)

def Program.nest : Program → Nest
  | .letIn cs ds body => .node .letIn none (cs.map Class.nest ++ (localNests ds ++ [body.nest]))
  | .expr body => .node .prog none [body.nest]

theorem Nest.lines_ofEntry (d : Nat) (e : Option Entry) : (ofEntry e).lines d = [OutlineLine.ofEntry d e] := by
  cases e with
  | none => exact congrArg (fun t => [OutlineLine.mk d t]) (by decide)
  | some e =>
    rw [ofEntry, lines_some (s := "STentry: ".toList) (by decide), nestLines, OutlineLine.ofEntry]
    have hhead : "STentry: nestlev ".toList = "STentry: ".toList ++ "nestlev ".toList := by decide
    simp only [hhead, List.append_assoc]

/-- The line of a use. -/
theorem Nest.lines_use {h : Heading} {s : List Char} (hs : h.text ++ ": ".toList = s) (d : Nat) (u : Use)
    (parts : List Nest) :
    (Nest.node h (some u.detail) parts).lines d = .ofUse d s u :: nestLines (d + 1) parts := by
  rw [lines_some hs, OutlineLine.ofUse, Use.detail, List.append_assoc, List.append_assoc, List.append_assoc]

mutual

theorem Expr.lines_nest : ∀ (e : Expr) (d : Nat), e.nest.lines d = e.outline d
  | .int _ _, d | .bool _ _, d => Nest.lines_some (by decide) d _ []
  | .null _, d => Nest.lines_none (by decide) d []
  | .binary _ _ a b, d => by
    rw [Expr.nest, Nest.lines_some (s := "Binary: ".toList) (by decide), nestLines, nestLines, nestLines,
      a.lines_nest, b.lines_nest, List.append_nil, Expr.outline, List.cons_append]
  | .not _ a, d => by
    rw [Expr.nest, Nest.lines_none (s := "Not".toList) (by decide), nestLines, nestLines, a.lines_nest, List.append_nil,
      Expr.outline]
  | .cond _ c t e, d => by
    rw [Expr.nest, Nest.lines_none (s := "If".toList) (by decide), nestLines, nestLines, nestLines, nestLines,
      c.lines_nest, t.lines_nest, e.lines_nest, List.append_nil, ← List.append_assoc, Expr.outline, List.cons_append,
      List.cons_append]
  | .print _ a, d => by
    rw [Expr.nest, Nest.lines_none (s := "Print".toList) (by decide), nestLines, nestLines, a.lines_nest,
      List.append_nil, Expr.outline]
  | .id _ u, d => by
    rw [Expr.nest, Nest.lines_use (s := "Id: ".toList) (by decide), nestLines, nestLines, Nest.lines_ofEntry,
      List.append_nil, Expr.outline]
  | .call _ u args, d => by
    rw [Expr.nest, Nest.lines_use (s := "Call: ".toList) (by decide), nestLines, Nest.lines_ofEntry,
      lines_argNests args, Expr.outline, List.singleton_append]
  | .send _ u m entry args, d => by
    rw [Expr.nest, Nest.lines_use (s := "ClassCall: ".toList) (by decide), nestLines, nestLines, Nest.lines_ofEntry,
      Nest.lines_some (s := "Method: ".toList) (by decide), nestLines, nestLines, Nest.lines_ofEntry,
      lines_argNests args, Expr.outline]
    rfl
  | .new _ c entry args, d => by
    rw [Expr.nest, Nest.lines_some (s := "New: ".toList) (by decide), nestLines, Nest.lines_ofEntry,
      lines_argNests args, Expr.outline, List.singleton_append]

theorem lines_argNests : ∀ (es : List Expr) (d : Nat), nestLines d (argNests es) = outlineArgs d es
  | [], _ => rfl
  | e :: es, d => by rw [argNests, nestLines, outlineArgs, e.lines_nest, lines_argNests es]

end

theorem nestLines_map {α : Type} {f : α → Nest} {g : α → List OutlineLine} (d : Nat) (h : ∀ a, (f a).lines d = g a) :
    ∀ as : List α, nestLines d (as.map f) = as.flatMap g
  | [] => rfl
  | a :: as => by rw [List.map_cons, nestLines, h, nestLines_map d h as, List.flatMap_cons]

theorem Param.lines_nest (p : Param) (d : Nat) : p.nest.lines d = [.ofParam d p] := by
  rw [nest, Nest.lines_some (s := "Par: ".toList) (by decide), nestLines, OutlineLine.ofParam, List.append_assoc]

theorem lines_paramNests (ps : List Param) (d : Nat) : nestLines d (ps.map Param.nest) = ps.map (.ofParam d) := by
  rw [nestLines_map d fun p => p.lines_nest d, List.map_eq_flatMap]

mutual

theorem Dec.lines_nest : ∀ (x : Dec) (d : Nat), x.nest.lines d = x.outline d
  | .var _ x ty v, d => by
    rw [Dec.nest, Nest.lines_some (s := "Var: ".toList) (by decide), nestLines, nestLines, v.lines_nest,
      List.append_nil, Dec.outline, List.append_assoc]
  | .func _ x ret ps ls body, d => by
    rw [Dec.nest, Nest.lines_some (s := "Fun: ".toList) (by decide), nestLines_append, nestLines_append, nestLines,
      nestLines, lines_paramNests, lines_localNests ls, body.lines_nest, Dec.outline]
    simp only [List.append_assoc, List.cons_append, List.append_nil]

theorem lines_localNests : ∀ (xs : List Dec) (d : Nat), nestLines d (localNests xs) = outlineLocals d xs
  | [], _ => rfl
  | x :: xs, d => by rw [localNests, nestLines, outlineLocals, x.lines_nest, lines_localNests xs]

end

theorem Field.lines_nest (f : Field) (d : Nat) : f.nest.lines d = [.ofField d f] := by
  rw [nest, Nest.lines_some (s := "Field: ".toList) (by decide), nestLines, OutlineLine.ofField]
  simp only [List.append_assoc, List.cons_append]

theorem Method.lines_nest (m : Method) (d : Nat) : m.nest.lines d = m.outline d := by
  rw [nest, Nest.lines_some (s := "Method: ".toList) (by decide), nestLines_append, nestLines_append, nestLines,
    nestLines, lines_paramNests, lines_localNests, m.body.lines_nest, outline]
  simp only [List.append_assoc, List.cons_append, List.append_nil]

theorem Class.heading_eq (c : Class) : c.heading = "Class: ".toList ++ c.detail := by
  unfold heading detail
  cases c.super with
  | none => exact congrArg _ (List.append_nil _).symm
  | some s => exact (List.append_assoc _ _ _).trans (List.append_assoc _ _ _)

theorem Class.lines_nest (c : Class) (d : Nat) : c.nest.lines d = c.outline d := by
  rw [nest, Nest.lines_some (s := "Class: ".toList) (by decide), nestLines_append,
    nestLines_map _ fun f => f.lines_nest (d + 1), nestLines_map _ fun m => m.lines_nest (d + 1), outline, heading_eq,
    List.map_eq_flatMap, List.cons_append]

/-- **The outline of a program lies in itself as the nodes of the program do.** -/
theorem Program.outline_eq_lines (p : Program) : p.outline = p.nest.lines 0 := by
  cases p with
  | letIn cs ds body =>
    rw [nest, Nest.lines_none (s := "ProgLetIn".toList) (by decide), nestLines_append, nestLines_append, nestLines,
      nestLines, nestLines_map _ fun c => c.lines_nest 1, lines_localNests, body.lines_nest, outline]
    simp only [List.append_assoc, List.cons_append, List.append_nil]
  | expr body =>
    rw [nest, Nest.lines_none (s := "Prog".toList) (by decide), nestLines, nestLines, body.lines_nest, outline,
      List.append_nil]

/-! ## Line breaks -/

theorem inline_commaList : ∀ {ts : List (List Char)}, (∀ t ∈ ts, Inline t) → Inline (commaList ts)
  | [], _ => nofun
  | [t], h => h t List.mem_cons_self
  | t :: t' :: ts, h => by
    obtain ⟨ht, hts⟩ := List.forall_mem_cons.1 h
    exact (ht.append (by decide)).append (inline_commaList hts)

section

variable {r : Relabel} (hr : ∀ x, r.name x = x → x.isProper = true)

include hr

theorem inline_name {x : Ident} (h : r.name x = x) : Inline x.chars :=
  List.count_eq_zero.1 (count_newline_of_isProper (hr x h))

omit hr in
mutual

/-- A type of proper names is shown on one line. -/
theorem Ty.inline (hr : ∀ x, r.name x = x → x.isProper = true) : ∀ {t : Ty}, t.relabel r = t → Inline t.text
  | .int, _ | .bool, _ | .null, _ => by decide
  | .ref _, h => inline_name hr (Ty.ref.inj h)
  | .function _, h => Signature.inline hr (Ty.function.inj h)
  | .method _, h => .append (by decide) (Signature.inline hr (Ty.method.inj h))
  | .cls _, h => Layout.inline hr (Ty.cls.inj h)

theorem Signature.inline (hr : ∀ x, r.name x = x → x.isProper = true) :
    ∀ {σ : Signature}, σ.relabel r = σ → Inline σ.text
  | ⟨_, _⟩, h =>
    .append (.append (.append (by decide) (inline_commaList (inline_texts hr (Signature.mk.inj h).1))) (by decide))
      (Ty.inline hr (Signature.mk.inj h).2)

theorem Layout.inline (hr : ∀ x, r.name x = x → x.isProper = true) : ∀ {l : Layout}, l.relabel r = l → Inline l.text
  | ⟨_, _⟩, h => .append (.append (by decide) (inline_commaList (inline_texts hr (Layout.mk.inj h).1))) (by decide)

theorem inline_texts (hr : ∀ x, r.name x = x → x.isProper = true) :
    ∀ {ts : List Ty}, relabelTypes r ts = ts → ∀ t ∈ texts ts, Inline t
  | [], _ => nofun
  | _ :: _, h => List.forall_mem_cons.2 ⟨Ty.inline hr (List.cons.inj h).1, inline_texts hr (List.cons.inj h).2⟩

end

theorem Nest.flat_ofEntry : ∀ {e : Option Entry}, e.map (Entry.relabel r) = e → (ofEntry e).Flat
  | none, _ => ⟨by decide, trivial⟩
  | some e, h => by
    have hty : e.ty.relabel r = e.ty := congrArg Entry.ty (Option.some.inj h)
    have htype : Inline ("nestlev ".toList ++ decimal e.level ++ " type ".toList ++ e.ty.text) :=
      .append (.append (.append (by decide) (newline_notMem_decimal _)) (by decide)) (Ty.inline hr hty)
    exact ⟨.append (.append htype (by decide)) (newline_notMem_signedDecimal _), trivial⟩

theorem Use.inline {u : Use} (h : u.relabel r = u) : Inline u.detail :=
  .append (.append (inline_name hr (congrArg Use.id h)) (by decide)) (newline_notMem_decimal _)

theorem Use.flat {u : Use} (h : u.relabel r = u) : (Nest.ofEntry u.entry).Flat :=
  Nest.flat_ofEntry hr (congrArg Use.entry h)

omit hr in
mutual

theorem Expr.flat_nest (hr : ∀ x, r.name x = x → x.isProper = true) : ∀ {e : Expr}, e.relabel r = e → e.nest.Flat
  | .int _ n, _ => ⟨newline_notMem_signedDecimal n.toInt, trivial⟩
  | .bool _ b, _ => ⟨by cases b <;> decide, trivial⟩
  | .null _, _ => ⟨by decide, trivial⟩
  | .binary _ op a b, h => by
    obtain ⟨-, -, ha, hb⟩ := Expr.binary.inj h
    exact ⟨by cases op <;> decide, Expr.flat_nest hr ha, Expr.flat_nest hr hb, trivial⟩
  | .not _ a, h => ⟨by decide, Expr.flat_nest hr (Expr.not.inj h).2, trivial⟩
  | .print _ a, h => ⟨by decide, Expr.flat_nest hr (Expr.print.inj h).2, trivial⟩
  | .cond _ c t e, h => by
    obtain ⟨-, hc, ht, he⟩ := Expr.cond.inj h
    exact ⟨by decide, Expr.flat_nest hr hc, Expr.flat_nest hr ht, Expr.flat_nest hr he, trivial⟩
  | .id _ u, h => ⟨Use.inline hr (Expr.id.inj h).2, Use.flat hr (Expr.id.inj h).2, trivial⟩
  | .call _ u args, h => by
    obtain ⟨-, hu, hargs⟩ := Expr.call.inj h
    exact ⟨Use.inline hr hu, Use.flat hr hu, flat_argNests hr hargs⟩
  | .send _ u m entry args, h => by
    obtain ⟨-, hu, hm, hentry, hargs⟩ := Expr.send.inj h
    exact ⟨Use.inline hr hu, Use.flat hr hu, ⟨inline_name hr hm, Nest.flat_ofEntry hr hentry, trivial⟩,
      flat_argNests hr hargs⟩
  | .new _ c entry args, h => by
    obtain ⟨-, hc, hentry, hargs⟩ := Expr.new.inj h
    exact ⟨inline_name hr hc, Nest.flat_ofEntry hr hentry, flat_argNests hr hargs⟩

theorem flat_argNests (hr : ∀ x, r.name x = x → x.isProper = true) :
    ∀ {es : List Expr}, relabelArgs r es = es → allFlat (argNests es)
  | [], _ => trivial
  | _ :: _, h => ⟨Expr.flat_nest hr (List.cons.inj h).1, flat_argNests hr (List.cons.inj h).2⟩

end

omit hr in
theorem allFlat_map {α : Type} {f : α → Nest} {g : α → α} (h : ∀ {a}, g a = a → (f a).Flat) :
    ∀ {as : List α}, as.map g = as → allFlat (as.map f)
  | [], _ => trivial
  | _ :: _, has => ⟨h (List.cons.inj has).1, allFlat_map h (List.cons.inj has).2⟩

theorem Param.flat_nest {p : Param} (h : p.relabel r = p) : p.nest.Flat := by
  obtain ⟨-, hx, hty⟩ := Param.mk.inj h
  exact ⟨(inline_name hr hx).append (.cons (by decide) (Ty.inline hr hty)), trivial⟩

theorem inline_signatureOf {ps : List Param} {ret : Ty} (hps : ps.map (Param.relabel r) = ps)
    (hret : ret.relabel r = ret) : Inline (signatureOf ps ret).text :=
  Signature.inline hr (by rw [← signatureOf_relabel, hps, hret])

omit hr in
mutual

theorem Dec.flat_nest (hr : ∀ x, r.name x = x → x.isProper = true) : ∀ {x : Dec}, x.relabel r = x → x.nest.Flat
  | .var _ _ _ _, h => by
    obtain ⟨-, hx, hty, hv⟩ := Dec.var.inj h
    exact ⟨(inline_name hr hx).append (.cons (by decide) (Ty.inline hr hty)), Expr.flat_nest hr hv, trivial⟩
  | .func _ _ _ _ _ _, h => by
    obtain ⟨-, hx, hret, hps, hls, hbody⟩ := Dec.func.inj h
    exact ⟨(inline_name hr hx).append (.cons (by decide) (inline_signatureOf hr hps hret)),
      allFlat_append (allFlat_map (Param.flat_nest hr) hps)
        (allFlat_append (flat_localNests hr hls) ⟨Expr.flat_nest hr hbody, trivial⟩)⟩

theorem flat_localNests (hr : ∀ x, r.name x = x → x.isProper = true) :
    ∀ {xs : List Dec}, relabelLocals r xs = xs → allFlat (localNests xs)
  | [], _ => trivial
  | _ :: _, h => ⟨Dec.flat_nest hr (List.cons.inj h).1, flat_localNests hr (List.cons.inj h).2⟩

end

theorem Field.flat_nest {f : Field} (h : f.relabel r = f) : f.nest.Flat := by
  obtain ⟨-, hx, hty, -⟩ := Field.mk.inj h
  exact ⟨(inline_name hr hx).append (.cons (by decide)
    (.append (Ty.inline hr hty) (.append (by decide) (newline_notMem_signedDecimal _)))), trivial⟩

theorem Method.flat_nest {m : Method} (h : m.relabel r = m) : m.nest.Flat := by
  obtain ⟨-, hx, hret, hps, hls, hbody, -⟩ := Method.mk.inj h
  rw [← relabelLocals_eq] at hls
  exact ⟨(inline_name hr hx).append (.cons (by decide)
      (.append (inline_signatureOf hr hps hret) (.append (by decide) (newline_notMem_signedDecimal _)))),
    allFlat_append (allFlat_map (Param.flat_nest hr) hps)
      (allFlat_append (flat_localNests hr hls) ⟨Expr.flat_nest hr hbody, trivial⟩)⟩

theorem Class.flat_nest {c : Class} (h : c.relabel r = c) : c.nest.Flat := by
  obtain ⟨-, hx, hsuper, hfs, hms, -⟩ := Class.mk.inj h
  refine ⟨?_, allFlat_append (allFlat_map (Field.flat_nest hr) hfs) (allFlat_map (Method.flat_nest hr) hms)⟩
  refine (inline_name hr hx).append ?_
  cases hs : c.super with
  | none => exact nofun
  | some s =>
    rw [hs] at hsuper
    exact .append (by decide) (inline_name hr (Option.some.inj hsuper))

theorem Program.flat_nest {p : Program} (h : p.relabel r = p) : p.nest.Flat := by
  cases p with
  | letIn cs ds body =>
    obtain ⟨hcs, hds, hbody⟩ := Program.letIn.inj h
    rw [← relabelLocals_eq] at hds
    exact ⟨by decide, allFlat_append (allFlat_map (Class.flat_nest hr) hcs)
      (allFlat_append (flat_localNests hr hds) ⟨Expr.flat_nest hr hbody, trivial⟩)⟩
  | expr body => exact ⟨by decide, Expr.flat_nest hr (Program.expr.inj h), trivial⟩

/-- **A program can be told from its outline as far as its nest tells it.** -/
theorem Program.nest_of_render {p q : Program} (hp : p.relabel r = p) (hq : q.relabel r = q)
    (h : p.render = q.render) : p.nest = q.nest := by
  rw [render, render, p.outline_eq_lines, q.outline_eq_lines] at h
  exact Nest.text_inj (Program.flat_nest hr hp) (Program.flat_nest hr hq) h

end

end FoolLang
