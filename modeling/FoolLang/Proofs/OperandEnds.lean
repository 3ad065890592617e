import FoolLang.Proofs.Viable
import Mathlib.Data.List.Induction
/-!
# OperandEnds — where an operand is complete

An operand is complete where an expression ends that stands where an operand may stand.  A draft is at the end of an
operand exactly there (`endsOperand_iff`): what has been read since the operand began is read in the same way by
itself, whatever is open around it.
-/
namespace FoolLang

/-- Whether the tokens end in a complete operand: an expression, where an operand may stand. -/
def EndsOperand (ts : List Token) : Prop :=
  ∃ front us e, ts = front ++ us.map LinedToken.token ∧ ExprText us e ∧ Viable (front ++ [.mark .kwTrue])

/-! ## Kinds of tokens -/

def Token.kind : Token → Terminal
  | .mark m => .mark m
  | .num _ => .num
  | .id _ => .id

@[simp] theorem Terminal.kind_sample (t : Terminal) : t.sample.kind = t := by cases t <;> rfl

namespace Draft

theorem afterOperand_isSome (m : Mark) (l l' : Nat) (e : Expr) (fs : List Frame) (s : Site) :
    (afterOperand (.mark m) l e fs s).isSome = (afterOperand (.mark m) l' e fs s).isSome := by
  simp only [afterOperand]
  cases m.binOp? <;> rfl

theorem operand_isSome (m : Mark) (l l' : Nat) (fs : List Frame) (s : Site) :
    (operand (.mark m) l fs s).isSome = (operand (.mark m) l' fs s).isSome := by
  cases m <;> rfl

theorem inName_mark (m : Mark) (l l' : Nat) (q : Purpose) : inName (.mark m) l q = inName (.mark m) l' q := by
  cases q with
  | var | routine => cases m <;> rfl
  | field head done => cases done <;> cases m <;> rfl
  | param name done o => cases done <;> cases m <;> rfl

/-- **Whether a draft takes a token depends on the kind of the token.** -/
theorem step_isSome_congr {t t' : Token} (h : t.kind = t'.kind) (l l' : Nat) (d : Draft) :
    (d.step t l).isSome = (d.step t' l').isSome := by
  cases t <;> cases t' <;> cases h
  case mark m =>
    cases d with
    | expr focus frames site =>
      cases focus with
      | operand => exact operand_isSome m l l' frames site
      | value e => exact afterOperand_isSome m l l' e frames site
      | name line x => cases m <;> rfl
      | _ => cases m <;> rfl
    | block b =>
      cases b with
      | main cs ds => cases ds <;> cases m <;> rfl
      | locals head ds o => cases ds <;> cases m <;> rfl
    | bind focus q =>
      cases focus with
      | name => exact congrArg Option.isSome (inName_mark m l l' q)
      | _ => cases m <;> rfl
    | _ => cases m <;> rfl
  case num n n' =>
    cases d with
    | expr focus frames site => cases focus <;> rfl
    | bind focus q => cases focus <;> cases q <;> rfl
    | _ => rfl
  case id x x' =>
    cases d with
    | expr focus frames site => cases focus <;> rfl
    | bind focus q => cases focus <;> cases q <;> rfl
    | _ => rfl

theorem takes_kind (d : Draft) (t : Token) (l : Nat) : d.takes t.kind = (d.step t l).isSome :=
  step_isSome_congr (Terminal.kind_sample t.kind) 0 l d

/-- A draft is at the end of an operand exactly if it takes an operator. -/
theorem step_times (l : Nat) (d : Draft) : (d.step (.mark .times) l).isSome = d.atOperandEnd := by
  cases d with
  | expr focus frames site => cases focus <;> rfl
  | block b =>
    cases b with
    | main cs ds => cases ds <;> rfl
    | locals head ds o => cases ds <;> rfl
  | bind focus q => cases focus <;> cases q <;> rfl
  | _ => rfl

theorem step_of_atOperandEnd {d : Draft} (hd : d.atOperandEnd = true) {m : Mark} {op : BinOp}
    (hm : m.binOp? = some op) (l : Nat) : ∃ frames site, d.step (.mark m) l = some (.expr .operand frames site) := by
  have hafter : ∀ (e : Expr) (fs : List Frame) (s : Site), ∃ frames site,
      afterOperand (.mark m) l e fs s = some (.expr .operand frames site) := fun e fs s => by
    simp only [afterOperand, hm]
    exact ⟨_, _, rfl⟩
  cases d with
  | expr focus frames site =>
    cases focus with
    | value e => exact hafter e frames site
    | name line x =>
      obtain ⟨fs, s, h⟩ := hafter (.id line (.fresh x)) frames site
      refine ⟨fs, s, Eq.trans (inExpr_name ?_ ?_ _ _ _ _ _) h⟩
      all_goals
        rintro ⟨⟩
        cases hm
    | _ => cases hd
  | _ => cases hd

end Draft

/-! ## Reading an operand by itself -/

/-- The frames that are completed are the same whatever is open around those that are not. -/
theorem settle_local (level : Nat) (e : Expr) (fs : List Frame) : ∃ popped, fs = popped ++ (settle level e fs).2 ∧
    ∀ r base, (settle level e fs).2 = r ++ base → settle level e (popped ++ r) = ((settle level e fs).1, r) := by
  fun_induction settle level e fs with
  | case1 e line fs ih =>
    obtain ⟨popped, hfs, hr⟩ := ih
    exact ⟨.not line :: popped, congrArg (_ :: ·) hfs, hr⟩
  | case2 e line op left fs h ih =>
    obtain ⟨popped, hfs, hr⟩ := ih
    refine ⟨.binary line op left :: popped, congrArg (_ :: ·) hfs, fun r base hrest => ?_⟩
    rw [List.cons_append, settle, if_pos h, hr r base hrest]
  | case3 e line op left fs h =>
    refine ⟨[], rfl, fun r base hrest => ?_⟩
    cases r with
    | nil => rfl
    | cons f r =>
      cases hrest
      rw [List.nil_append, settle, if_neg h]
  | case4 e fs hnot hbin =>
    refine ⟨[], rfl, fun r base hrest => ?_⟩
    cases r with
    | nil => rfl
    | cons f r =>
      cases hrest
      cases f with
      | not line => exact (hnot line _ rfl).elim
      | binary line op left => exact (hbin line op left _ rfl).elim
      | _ => rfl

/-- A part of reading that completes some of the frames around it and opens one at most, for an operand to follow.  It
does the same whatever is open around the frames it completes. -/
def ReadsLocally (g : List Frame → Site → Option Draft) : Prop :=
  ∀ frames site focus' frames' site', g frames site = some (.expr focus' frames' site') →
    ∃ popped new rest, frames = popped ++ rest ∧ frames' = new ++ rest ∧
      (new = [] ∨ focus' = .operand ∧ ∃ f, new = [f]) ∧
      ∀ r base, rest = r ++ base → g (popped ++ r) .program = some (.expr focus' (new ++ r) .program)

namespace ReadsLocally

theorem none : ReadsLocally fun _ _ => none := nofun

theorem stay (focus : Focus) : ReadsLocally fun fs s => some (.expr focus fs s) := by
  rintro frames site focus' frames' site' ⟨⟩
  exact ⟨[], [], frames, rfl, rfl, .inl rfl, fun r base _ => rfl⟩

theorem push (f : Frame) : ReadsLocally fun fs s => some (.expr .operand (f :: fs) s) := by
  rintro frames site focus' frames' site' ⟨⟩
  exact ⟨[], [f], frames, rfl, rfl, .inr ⟨rfl, f, rfl⟩, fun r base _ => rfl⟩

end ReadsLocally

namespace Draft

theorem close_ne_expr (e : Expr) (s : Site) (focus : Focus) (frames : List Frame) (site : Site) :
    s.close e ≠ .expr focus frames site := by
  cases s with
  | program | main | var => nofun
  | body head ls o => cases o <;> nofun

theorem operand_local (t : Token) (l : Nat) : ReadsLocally (operand t l) := by
  cases t with
  | num n => exact .stay _
  | id x => exact .stay _
  | mark m =>
    cases m with
    | minus | kwTrue | kwFalse | kwNull | kwPrint | kwNew => exact .stay _
    | not | lparen | kwIf => exact .push _
    | rparen =>
      intro frames site focus' frames' site' h
      simp only [operand] at h
      split at h
      · rename_i line head _
        cases h
        exact ⟨[.args line head []], [], _, rfl, rfl, .inl rfl, fun r base _ => rfl⟩
      · cases h
    | _ => exact .none

theorem close_local (m : Mark) (e : Expr) : ReadsLocally (close m e) := by
  intro frames site focus' frames' site' h
  unfold close at h
  split at h
  case h_8 => exact (close_ne_expr _ _ _ _ _ (Option.some.inj h)).elim
  case h_9 => cases h
  case h_4 line head done fs =>
    cases h
    exact ⟨[.args line head done], [.args line head (e :: done)], fs, rfl, rfl, .inr ⟨rfl, _, rfl⟩, fun r base _ => rfl⟩
  all_goals
    cases h
    exact ⟨[_], [], _, rfl, rfl, .inl rfl, fun r base _ => rfl⟩

theorem afterOperand_local (t : Token) (l : Nat) (e : Expr) : ReadsLocally (afterOperand t l e) := by
  cases t with
  | mark m =>
    intro frames site focus' frames' site' h
    simp only [afterOperand] at h ⊢
    cases hm : m.binOp? with
    | some op =>
      simp only [hm] at h ⊢
      cases h
      obtain ⟨popped, hframes, hlocal⟩ := settle_local op.level e frames
      refine ⟨popped, [_], _, hframes, rfl, .inr ⟨rfl, _, rfl⟩, fun r base hr => ?_⟩
      rw [hlocal r base hr]
      rfl
    | none =>
      simp only [hm] at h ⊢
      obtain ⟨popped, hframes, hlocal⟩ := settle_local 0 e frames
      obtain ⟨popped', new, rest, hrest, hframes', hnew, hclose⟩ := close_local m _ _ _ _ _ _ h
      refine ⟨popped ++ popped', new, rest, by rw [List.append_assoc, ← hrest]; exact hframes, hframes', hnew,
        fun r base hr => ?_⟩
      rw [List.append_assoc, hlocal (popped' ++ r) base (by rw [hrest, hr, List.append_assoc])]
      exact hclose r base hr
  | _ => exact .none

/-- **What is read inside an expression is read locally.** -/
theorem inExpr_local (t : Token) (l : Nat) (focus : Focus) : ReadsLocally fun fs s => inExpr t l fs s focus := by
  cases focus with
  | operand => exact operand_local t l
  | value e => exact afterOperand_local t l e
  | name line x =>
    by_cases hlparen : t = .mark .lparen
    · subst hlparen
      exact .push _
    by_cases hdot : t = .mark .dot
    · subst hdot
      exact .stay _
    simp only [inExpr_name hlparen hdot]
    exact afterOperand_local t l _
  | _ =>
    cases t with
    | num n => first | exact .none | exact .stay _
    | id x => first | exact .none | exact .stay _
    | mark m => cases m <;> first | exact .none | exact .stay _ | exact .push _

end Draft

/-! ## Where operands begin -/

/-- Inside an expression: whichever of the frames are left out, the rest of it began where an operand may stand, and
has been read as it is by itself. -/
def Begun (us : List LinedToken) (focus : Focus) (frames : List Frame) : Prop :=
  ∀ fs base, frames = fs ++ base → ∃ front mid d, us = front ++ mid ∧ Draft.start.advance front = some d ∧
    d.takes (.mark .kwTrue) = true ∧ (Draft.expr .operand [] .program).advance mid = some (.expr focus fs .program)

namespace Begun

variable {us : List LinedToken} {t : Token} {l : Nat} {focus focus' : Focus} {frames frames' : List Frame}
  {site site' : Site} {d : Draft}

/-- Where an operand may stand, the innermost expression is only about to begin. -/
theorem place (hd : Draft.start.advance us = some d) (htakes : d.takes (.mark .kwTrue) = true) :
    Begun us .operand [] := fun fs base h => by
  obtain ⟨rfl, rfl⟩ := List.append_eq_nil_iff.1 h.symm
  exact ⟨us, [], d, (List.append_nil us).symm, hd, htakes, rfl⟩

theorem step (h : Begun us focus frames) (hd : Draft.start.advance (us ++ [⟨t, l⟩]) = some (.expr focus' frames' site'))
    (hstep : Draft.inExpr t l frames site focus = some (.expr focus' frames' site')) :
    Begun (us ++ [⟨t, l⟩]) focus' frames' := by
  obtain ⟨popped, new, rest, rfl, rfl, hnew, hlocal⟩ := Draft.inExpr_local t l focus _ _ _ _ _ hstep
  have hlater : ∀ r base, rest = r ++ base → ∃ front mid d, us ++ [⟨t, l⟩] = front ++ mid ∧
      Draft.start.advance front = some d ∧ d.takes (.mark .kwTrue) = true ∧
      (Draft.expr .operand [] .program).advance mid = some (.expr focus' (new ++ r) .program) := by
    rintro r base rfl
    obtain ⟨front, mid, d, rfl, hfront, htakes, hmid⟩ := h (popped ++ r) base (List.append_assoc _ _ _).symm
    refine ⟨front, mid ++ [⟨t, l⟩], d, List.append_assoc _ _ _, hfront, htakes, ?_⟩
    rw [Draft.advance_append, hmid]
    simpa [Draft.step] using hlocal r base rfl
  intro fs base hframes
  rcases List.append_eq_append_iff.1 hframes with ⟨r, rfl, hrest⟩ | ⟨r, hr, rfl⟩
  · exact hlater r base hrest
  · rcases hnew with rfl | ⟨rfl, f, rfl⟩
    · obtain ⟨rfl, rfl⟩ := List.append_eq_nil_iff.1 hr.symm
      exact hlater [] rest rfl
    · cases fs with
      | nil => exact ⟨_, [], _, (List.append_nil _).symm, hd, rfl, rfl⟩
      | cons f' fs =>
        obtain ⟨rfl, hnil⟩ := List.cons.inj hr
        obtain ⟨rfl, rfl⟩ := List.append_eq_nil_iff.1 hnil.symm
        exact hlater [] rest rfl

end Begun

/-- A token that begins an expression where the draft is no expression yet. -/
theorem step_eq_expr {d : Draft} {t : Token} {l : Nat} {focus' : Focus} {frames' : List Frame} {site' : Site}
    (h : d.step t l = some (.expr focus' frames' site')) :
    (∃ focus frames site, d = .expr focus frames site ∧
      Draft.inExpr t l frames site focus = some (.expr focus' frames' site')) ∨
    (d.takes (.mark .kwTrue) = true ∧ ∃ site, Draft.operand t l [] site = some (.expr focus' frames' site')) ∨
    focus' = .operand ∧ frames' = [] := by
  cases d with
  | expr focus frames site => exact .inl ⟨focus, frames, site, rfl, h⟩
  | start =>
    simp only [Draft.step] at h
    split at h
    · cases h
    · exact .inr (.inl ⟨rfl, _, h⟩)
  | routineOpen head o =>
    simp only [Draft.step] at h
    split at h
    · cases h
    · exact .inr (.inl ⟨rfl, _, h⟩)
  | block b =>
    simp only [Draft.step, Draft.inBlock] at h
    split at h
    · cases h
    · cases h
    · split at h <;> cases h
    · split at h <;> cases h <;> exact .inr (.inr ⟨rfl, rfl⟩)
    · cases h
  | bind focus q =>
    cases focus with
    | name =>
      simp only [Draft.step, Draft.inName] at h
      split at h <;> cases h
    | colon line x =>
      simp only [Draft.step] at h
      split at h <;> cases h
    | ty line x =>
      obtain ⟨ty, -, hd⟩ := Option.map_eq_some_iff.1 h
      cases hd
    | done b =>
      simp only [Draft.step, Draft.afterBinding] at h
      split at h <;> cases h
      exact .inr (.inr ⟨rfl, rfl⟩)
  | finished p => cases h
  | _ =>
    simp only [Draft.step] at h
    split at h <;> cases h

/-- **Everything open inside an expression began where an operand may stand.** -/
theorem begun_of_advance {us : List LinedToken} : ∀ {focus : Focus} {frames : List Frame} {site : Site},
    Draft.start.advance us = some (.expr focus frames site) → Begun us focus frames := by
  induction us using List.reverseRecOn with
  | nil => exact fun h => nomatch h
  | append_singleton us t ih =>
    intro focus' frames' site' h
    have hadvance := h
    rw [Draft.advance_append] at h
    obtain ⟨d, hd, h⟩ := Option.bind_eq_some_iff.1 h
    replace h : d.step t.token t.line = some (.expr focus' frames' site') := by simpa using h
    rcases step_eq_expr h with ⟨focus, frames, site, rfl, hstep⟩ | ⟨htakes, site, hstep⟩ | ⟨rfl, rfl⟩
    · exact (ih hd).step hadvance hstep
    · exact (Begun.place hd htakes).step hadvance hstep
    · exact .place hadvance rfl

/-! ## Complete operands -/

/-- What is read by itself up to the end of an operand is an expression. -/
theorem exprText_of_advance {us : List LinedToken} {focus : Focus}
    (h : (Draft.expr .operand [] .program).advance us = some (.expr focus [] .program))
    (hend : (Draft.expr focus [] .program).atOperandEnd = true) : ∃ e, ExprText us e := by
  obtain ⟨e, hlast⟩ : ∃ e, (Draft.expr focus [] .program).step (.mark .semicolon) 0 = some (.finished (.expr e)) := by
    cases focus with
    | value e => exact ⟨e, rfl⟩
    | name l x => exact ⟨_, rfl⟩
    | _ => cases hend
  have hread : DraftRest (.expr e) (.expr .operand [] .program) (us ++ [Mark.on .semicolon 0]) := by
    rw [Draft.rest_iff_advance, Draft.advance_append, h]
    simp [Mark.on, hlast]
  obtain ⟨vs, _, e', hus, he', l, ws, rfl, rfl, -⟩ := (bodyRest_iff .program).2 hread
  obtain ⟨rfl, -⟩ := List.append_inj' hus rfl
  exact ⟨e', he'⟩

/-- **An expression where an operand may stand is read up to the end of an operand.** -/
theorem advance_of_layered {n : Nat} {us : List LinedToken} {e : Expr} (h : Layered UnaryText n us e) :
    ∀ (frames : List Frame) (site : Site), ∃ d, (Draft.expr .operand frames site).advance us = some d ∧
      d.atOperandEnd = true := by
  induction h with
  | tighter _ ih => exact ih
  | @unary us e hu =>
    intro frames site
    -- an operator may follow the operand, so whatever has read the operand must take one
    obtain ⟨frames', site', hstep⟩ :=
      Draft.step_of_atOperandEnd (d := .expr (.value e) frames site) rfl (m := .times) rfl 0
    obtain ⟨p, ws, hws⟩ := draft_completable (.expr .operand frames' site')
    have hvalue : DraftRest p (.expr (.value e) frames site) (Mark.on .times 0 :: ws) := (step_rest _).2 ⟨_, hstep, hws⟩
    have hvalue := (draftRest_expr.1 hvalue).resolve_right (not_noArgsRest nofun)
    have hoperand : DraftRest p (.expr .operand frames site) (us ++ Mark.on .times 0 :: ws) := .inl (.intro hu hvalue)
    obtain ⟨d, hd, hrest⟩ := (Draft.rest_append us).1 hoperand
    obtain ⟨d', hd', -⟩ := (step_rest d).1 hrest
    exact ⟨d, hd, by rw [← Draft.step_times 0 d, hd']; rfl⟩
  | @binary n l m op ts us a b hop _ _ ihl ihr =>
    intro frames site
    obtain ⟨d, hd, hend⟩ := ihl frames site
    obtain ⟨frames', site', hstep⟩ := Draft.step_of_atOperandEnd hend (operator_iff.1 hop).1 l
    obtain ⟨d', hd', hend'⟩ := ihr frames' site'
    refine ⟨d', ?_, hend'⟩
    rw [Draft.advance_append, hd, Option.bind_some, Draft.advance_cons]
    simp [Mark.on, hstep, hd']

theorem advance_of_place {d : Draft} (hd : d.takes (.mark .kwTrue) = true) {us : List LinedToken} {e : Expr}
    (h : ExprText us e) : ∃ d', d.advance us = some d' ∧ d'.atOperandEnd = true := by
  obtain ⟨frames, site, hsame⟩ : ∃ frames site, ∀ t l d', (Draft.expr .operand frames site).step t l = some d' →
      d.step t l = some d' := by
    cases d with
    | expr focus frames site =>
      cases focus with
      | operand => exact ⟨frames, site, fun _ _ _ h => h⟩
      | _ => cases hd
    | start =>
      refine ⟨[], .program, fun t l d' h => ?_⟩
      simp only [Draft.step]
      split
      · cases h
      · exact h
    | routineOpen head o =>
      refine ⟨[], .body head [] o, fun t l d' h => ?_⟩
      simp only [Draft.step]
      split
      · cases h
      · exact h
    | block b => cases b <;> cases hd
    | bind focus q => cases focus <;> cases q <;> cases hd
    | _ => cases hd
  obtain ⟨d', hd', hend⟩ := advance_of_layered h frames site
  refine ⟨d', ?_, hend⟩
  cases us with
  | nil =>
    cases hd'
    cases hend
  | cons u us =>
    rw [Draft.advance_cons] at hd' ⊢
    obtain ⟨d₁, h₁, hrest⟩ := Option.bind_eq_some_iff.1 hd'
    rw [hsame _ _ _ h₁]
    exact hrest

theorem Draft.atOperandEnd_relabel (r : Relabel) (d : Draft) : (d.relabel r).atOperandEnd = d.atOperandEnd := by
  cases d with
  | expr focus frames site => cases focus <;> rfl
  | _ => rfl

/-- **A draft is at the end of an operand exactly where an operand is complete.** -/
theorem endsOperand_iff {us : List LinedToken} {d : Draft} (hd : Draft.start.advance us = some d) :
    EndsOperand (us.map LinedToken.token) ↔ d.atOperandEnd = true := by
  constructor
  · rintro ⟨front, vs, e, hus, hvs, hviable⟩
    obtain ⟨us₁, us₂, rfl, rfl, hmap⟩ := List.map_eq_append_iff.1 hus
    rw [Draft.advance_append] at hd
    obtain ⟨d₁, h₁, h₂⟩ := Option.bind_eq_some_iff.1 hd
    have htakes : d₁.takes (.mark .kwTrue) = true := (viable_snoc_iff h₁ (.mark .kwTrue) 0).1 hviable
    obtain ⟨d', hd', hend⟩ := advance_of_place htakes hvs
    -- the tokens may stand on other lines than those of the expression
    have hsame := Draft.advance_congr hmap d₁
    rw [h₂, hd'] at hsame
    rw [← Draft.atOperandEnd_relabel .oneLine, Option.some.inj hsame, Draft.atOperandEnd_relabel, hend]
  · intro hend
    obtain ⟨focus, frames, site, rfl⟩ : ∃ focus frames site, d = .expr focus frames site := by
      cases d with
      | expr focus frames site => exact ⟨_, _, _, rfl⟩
      | _ => cases hend
    obtain ⟨front, mid, d, rfl, hfront, htakes, hmid⟩ := begun_of_advance hd [] frames rfl
    obtain ⟨e, he⟩ := exprText_of_advance hmid (by cases focus <;> exact hend)
    refine ⟨front.map LinedToken.token, mid, e, List.map_append, he, ?_⟩
    rw [viable_snoc_iff hfront (.mark .kwTrue) 0]
    exact htakes

end FoolLang
