import FoolLang.Proofs.Generate
import FoolLang.Proofs.Templates
/-!
# Unaddressable — memories that no 32-bit integer can address

Whether a memory can be addressed is asked when a machine is built, once its code has assembled.  But every
instantiation pushes the size of the memory, and a size that is no 32-bit integer is no word of an assembly text: a
program with an instantiation fails at the first of them (`assemble_unfit`), be it ever reached or not, and only one
without any fails for the size of its memory (`run_unaddressable`).
-/
namespace FoolLang

open Text Assembly

namespace Assembly

/-! ## Passing over the text of a code -/

/-- The head `cs` of a text is cut into these words, all of them valid, and takes up `n` lines. -/
def Passes (n : Nat) (cs : List Char) (ws : List Word) (rest : List Char) : Prop :=
  ∀ fuel line, (cs ++ rest).length ≤ fuel → ∃ before fuel', before.map WordAt.word = ws.map some ∧
    rest.length ≤ fuel' ∧ scanFrom fuel line (cs ++ rest) = before ++ scanFrom fuel' (line + n) rest

namespace Passes

variable {n m : Nat} {a b cs rest text : List Char} {u v : List Word} {c : Char}

theorem nil (rest : List Char) : Passes 0 [] [] rest := fun fuel _ hf => ⟨[], fuel, rfl, hf, rfl⟩

theorem append (ha : Passes n a u (b ++ rest)) (hb : Passes m b v rest) : Passes (n + m) (a ++ b) (u ++ v) rest := by
  intro fuel line hf
  rw [List.append_assoc] at hf ⊢
  obtain ⟨before, fuel₁, hu, hf₁, hscan⟩ := ha fuel line hf
  obtain ⟨after, fuel₂, hv, hf₂, hscan'⟩ := hb fuel₁ (line + n) hf₁
  refine ⟨before ++ after, fuel₂, ?_, hf₂, ?_⟩
  · rw [List.map_append, List.map_append, hu, hv]
  · rw [hscan, hscan', List.append_assoc, Nat.add_assoc]

theorem take {w : Word} (hb : bite c cs = .take (some w) text rest) : Passes (text.count '\n') text [w] rest := by
  intro fuel line hf
  obtain ⟨hne, happ⟩ := bite_append c cs
  rw [hb] at hne happ
  have happ : text ++ rest = c :: cs := happ
  have hpos : 0 < text.length := List.length_pos_iff.2 hne
  rw [List.length_append] at hf
  rw [happ]
  cases fuel with
  | zero => omega
  | succ fuel =>
    rw [scanFrom, hb]
    exact ⟨[⟨some w, text, line⟩], fuel, rfl, by omega, rfl⟩

theorem skip (hb : bite c cs = .skip text rest) : Passes (text.count '\n') text [] rest := by
  intro fuel line hf
  obtain ⟨hne, happ⟩ := bite_append c cs
  rw [hb] at hne happ
  have happ : text ++ rest = c :: cs := happ
  have hpos : 0 < text.length := List.length_pos_iff.2 hne
  rw [List.length_append] at hf
  rw [happ]
  cases fuel with
  | zero => omega
  | succ fuel =>
    rw [scanFrom, hb]
    exact ⟨[], fuel, rfl, by omega, rfl⟩

theorem name (hc : isLetter c = true) (hcs : cs.all isNameChar = true) (hr : Stops rest) :
    Passes 0 (c :: cs) [Word.ofName (c :: cs)] rest := by
  have hcount : (c :: cs).count '\n' = 0 := by
    rw [List.count_eq_zero]
    intro hm
    rcases List.mem_cons.1 hm with rfl | hm
    · cases hc
    · cases List.all_eq_true.1 hcs _ hm
  rw [← hcount]
  exact take (bite_name c cs hc hcs hr)

theorem blank (hc : isBlank c = true) (hn : c ≠ '\n') : Passes 0 [c] [] rest := by
  have hcount : [c].count '\n' = 0 := List.count_singleton.trans (if_neg (by simpa using hn))
  rw [← hcount]
  exact skip (bite_blank hc rest)

theorem newline : Passes 1 ['\n'] [] rest := skip (bite_blank (by decide) rest)

theorem colon : Passes 0 [':'] [.colon] rest := take (bite_colon rest)

theorem number {v : Int} (hv : FitsWord v) (hr : Stops rest) : Passes 0 (signedDecimal v) [.num v] rest := by
  obtain ⟨c, cs, hcs, hb⟩ := bite_number v hr
  have hcount : (signedDecimal v).count '\n' = 0 := List.count_eq_zero.2 (newline_notMem_signedDecimal v)
  rw [show Word.ofInt? v = some (.num v) from if_pos hv] at hb
  rw [← hcount]
  exact take hb

theorem label (l : Label) (hr : Stops rest) : Passes 0 l.text [.label l.ident] rest := by
  obtain ⟨c, cs, hchars, hc, hcs⟩ := l.isLabel.name
  have hname : Passes 0 (c :: cs) _ rest := name hc hcs hr
  rw [← hchars, l.isLabel.free] at hname
  exact hname

theorem push : Passes 0 "push ".toList [.push] rest := by
  have hname : Passes 0 Instr.pushMnemonic [Word.ofName Instr.pushMnemonic] (' ' :: rest) :=
    name (by decide) (by decide) (stops_cons (by decide))
  rw [ofName_push] at hname
  exact hname.append (blank (by decide) (by decide))

theorem branch (b : Branch) : Passes 0 (b.mnemonic ++ [' ']) [.branch b] rest := by
  have hname : Passes 0 b.mnemonic [Word.ofName b.mnemonic] (' ' :: rest) := by
    cases b <;> exact name (by decide) (by decide) (stops_cons (by decide))
  rw [ofName_branch] at hname
  exact hname.append (blank (by decide) (by decide))

theorem op (o : Op) (hr : Stops rest) : Passes 0 o.mnemonic [.op o] rest := by
  have hname : Passes 0 o.mnemonic [Word.ofName o.mnemonic] rest := by
    cases o <;> exact name (by decide) (by decide) hr
  rwa [ofName_op] at hname

/-- **A line takes up a line.** -/
theorem line {l : Line} (hl : l.Fits) : Passes 1 (l.text ++ ['\n']) l.words rest := by
  have hstop : Stops ('\n' :: rest) := stops_cons (by decide)
  cases l with
  | define l => exact ((label l (stops_cons (by decide))).append colon).append newline
  | push v => exact (push.append (number hl hstop)).append newline
  | pushLabel l => exact (push.append (label l hstop)).append newline
  | branch b l =>
    have hbranch : Passes 0 (b.mnemonic ++ [' '] ++ l.text) [.branch b, .label l.ident] ('\n' :: rest) :=
      (branch b).append (label l hstop)
    rw [← List.append_cons] at hbranch
    exact hbranch.append newline
  | op o => exact (op o hstop).append newline

/-- **The text of a code takes up as many lines as the code has.** -/
theorem code : ∀ {code : Code}, (∀ l ∈ code, l.Fits) → Passes code.length code.text (code.flatMap Line.words) rest
  | [], _ => nil rest
  | l :: code, h => by
    obtain ⟨hl, hcode⟩ := List.forall_mem_cons.1 h
    rw [List.length_cons, Nat.add_comm]
    exact (line hl).append (Passes.code hcode)

end Passes

/-- Where a number that is no 32-bit integer is pushed, the second word is none. -/
theorem exists_scanFrom_unfit {n : Int} (hn : ¬FitsWord n) {fuel : Nat} (line : Nat) {rest : List Char}
    (hf : ((Line.push n).text ++ '\n' :: rest).length ≤ fuel) : ∃ t t' after,
    scanFrom fuel line ((Line.push n).text ++ '\n' :: rest) =
      ⟨some .push, t, line⟩ :: ⟨none, t', line⟩ :: after := by
  have hstop : Stops ('\n' :: rest) := stops_cons (by decide)
  obtain ⟨c, cs, hcs, hnumber⟩ := bite_number n hstop
  rw [show Word.ofInt? n = none from if_neg hn] at hnumber
  have htext : (Line.push n).text ++ '\n' :: rest = 'p' :: ("ush".toList ++ ' ' :: c :: (cs ++ '\n' :: rest)) := by
    simp [Line.text, hcs]
  have hpush : bite 'p' ("ush".toList ++ ' ' :: c :: (cs ++ '\n' :: rest)) =
      .take (some .push) "push".toList (' ' :: c :: (cs ++ '\n' :: rest)) :=
    bite_name 'p' "ush".toList (by decide) (by decide) (stops_cons (by decide))
  obtain ⟨k, rfl⟩ : ∃ k, fuel = k + 3 := by
    rw [htext] at hf
    exact ⟨fuel - 3, by simp at hf; omega⟩
  rw [htext, scanFrom, hpush]
  dsimp only
  rw [scanFrom, bite_blank (by decide)]
  dsimp only
  rw [scanFrom, hnumber]
  exact ⟨_, _, _, rfl⟩

/-- **A number that is no 32-bit integer is missed where it is pushed**, if the code is all right up to there. -/
theorem assemble_unfit {pre : Code} {n : Int} (hpre : ∀ l ∈ pre, l.Fits) (honce : ∀ l, pre.count (.define l) ≤ 1)
    (hn : ¬FitsWord n) (post : Code) (limit : Nat) :
    assemble (Code.text (pre ++ .push n :: post)) limit =
      .error (.missingOperand Instr.pushMnemonic (pre.length + 1)) := by
  have htext : Code.text (pre ++ .push n :: post) = pre.text ++ ((Line.push n).text ++ '\n' :: Code.text post) := by
    simp [Code.text]
  have hpasses : Passes pre.length pre.text (pre.flatMap Line.words) ((Line.push n).text ++ '\n' :: Code.text post) :=
    Passes.code hpre
  obtain ⟨before, fuel, hwords, hfuel, hscan⟩ := hpasses _ 1 (Nat.le_refl _)
  obtain ⟨ss, hspells, hof⟩ := exists_spells hpre hwords
  obtain ⟨t, t', after, hunfit⟩ := exists_scanFrom_unfit hn (1 + pre.length) hfuel
  have hwhole : scan (Code.text (pre ++ .push n :: post)) =
      before ++ ⟨some .push, t, 1 + pre.length⟩ :: ⟨none, t', 1 + pre.length⟩ :: after := by
    rw [scan, htext, hscan, hunfit]
  rw [Nat.add_comm]
  exact assemble_of_fault ⟨before, _, ss, hwhole, hspells, nodup_definitions_of hof honce, .nothingPushed _ rfl⟩ limit

end Assembly

/-! ## Where the size is pushed -/

/-- Whether an expression is an instantiation. -/
def Expr.isNew : Expr → Bool
  | .new .. => true
  | _ => false

/-- There is an instantiation among these nodes, with the entry of its class. -/
def Instantiates (ns : List Expr) : Prop := ∃ n ∈ ns, n.isNew = true ∧ n.Complete

theorem instantiates_cons {n : Expr} {ns : List Expr} :
    Instantiates (n :: ns) ↔ n.isNew = true ∧ n.Complete ∨ Instantiates ns := by simp [Instantiates]

theorem instantiates_append {ns ms : List Expr} : Instantiates (ns ++ ms) ↔ Instantiates ns ∨ Instantiates ms := by
  simp [Instantiates, or_and_right, exists_or]

/-- The instantiations in another expression are in its parts. -/
theorem Instantiates.parts {n : Expr} {ns : List Expr} (h : Instantiates (n :: ns)) (hn : n.isNew = false) :
    Instantiates ns := (instantiates_cons.1 h).resolve_left fun ⟨hnew, _⟩ => by simp [hn] at hnew

theorem not_instantiates_nil : ¬Instantiates [] := nofun

section

variable (M : Nat)

mutual

theorem Expr.push_mem_code : ∀ (e : Expr) (k : Nat), Instantiates e.nodes → .push M ∈ e.code M k
  | .int _ _, _, h | .bool _ _, _, h | .null _, _, h | .id _ _, _, h => absurd (h.parts rfl) not_instantiates_nil
  | .binary _ op a b, k, h => by
    rcases instantiates_append.1 (h.parts rfl) with h | h
    · have ih := fun k => a.push_mem_code k h
      cases op <;> simp [Expr.code, ih]
    · have ih := fun k => b.push_mem_code k h
      cases op <;> simp [Expr.code, ih]
  | .not _ a, _, h | .print _ a, _, h => List.mem_append_left _ (a.push_mem_code _ (h.parts rfl))
  | .cond _ c t e, k, h => by
    rcases instantiates_append.1 (h.parts rfl) with h | h
    · rcases instantiates_append.1 h with h | h
      · simp [Expr.code, c.push_mem_code _ h]
      · simp [Expr.code, t.push_mem_code _ h]
    · simp [Expr.code, e.push_mem_code _ h]
  | .call _ _ args, k, h | .send _ _ _ _ args, k, h =>
    List.mem_append_left _ (List.mem_cons_of_mem _ (push_mem_codeBack args k (h.parts rfl)))
  | .new _ _ entry args, k, h => by
    rcases instantiates_cons.1 h with ⟨-, hc⟩ | h
    · obtain ⟨e, rfl⟩ := Option.isSome_iff_exists.1 hc
      simp [Expr.code, instantiate]
    · exact List.mem_append_left _ (push_mem_codeAll args k h)

theorem push_mem_codeAll : ∀ (es : List Expr) (k : Nat), Instantiates (argNodes es) → .push M ∈ codeAll M k es
  | [], _, h => absurd h not_instantiates_nil
  | e :: es, k, h => by
    rcases instantiates_append.1 h with h | h
    · exact List.mem_append_left _ (e.push_mem_code _ h)
    · exact List.mem_append_right _ (push_mem_codeAll es _ h)

theorem push_mem_codeBack : ∀ (es : List Expr) (k : Nat), Instantiates (argNodes es) → .push M ∈ codeBack M k es
  | [], _, h => absurd h not_instantiates_nil
  | e :: es, k, h => by
    rcases instantiates_append.1 h with h | h
    · exact List.mem_append_right _ (e.push_mem_code _ h)
    · exact List.mem_append_left _ (push_mem_codeBack es _ h)

end

theorem push_mem_routineCode {decs body : Code} (n params locals : Nat) (h : .push M ∈ decs ∨ .push M ∈ body) :
    .push M ∈ routineCode n params locals decs body := by
  rcases h with h | h <;> simp [routineCode, h]

mutual

/-- The code of a declaration pushes the size, or that of its routines does. -/
theorem Dec.push_mem_code : ∀ (d : Dec) (k f : Nat), Instantiates d.nodes →
    .push M ∈ d.code M k f ∨ .push M ∈ d.routineCode M k f
  | .var _ _ _ v, k, _, h => .inl (v.push_mem_code M k h)
  | .func _ _ _ _ ls body, k, f, h => by
    refine .inr (List.mem_append.2 ?_)
    rcases instantiates_append.1 h with h | h
    · exact (push_mem_localCode ls k (f + 1) h).symm.imp_right fun h => push_mem_routineCode M _ _ _ (.inl h)
    · exact .inr (push_mem_routineCode M _ _ _ (.inr (body.push_mem_code M _ h)))

theorem push_mem_localCode : ∀ (ds : List Dec) (k f : Nat), Instantiates (localNodes ds) →
    .push M ∈ localCode M k f ds ∨ .push M ∈ localRoutineCode M k f ds
  | [], _, _, h => absurd h not_instantiates_nil
  | d :: ds, k, f, h => by
    rw [localCode, localRoutineCode, List.mem_append, List.mem_append]
    rcases instantiates_append.1 h with h | h
    · exact (d.push_mem_code k f h).imp .inl .inl
    · exact (push_mem_localCode ds _ _ h).imp .inr .inr

end

theorem push_mem_methodRoutineCode : ∀ (ms : List Method) (k f : Nat), Instantiates (ms.flatMap Method.nodes) →
    .push M ∈ methodRoutineCode M k f ms
  | [], _, _, h => absurd h not_instantiates_nil
  | m :: ms, k, f, h => by
    rcases instantiates_append.1 h with h | h
    · have hm := Dec.push_mem_code M (.func m.line m.id m.ret m.params m.locals m.body) k f h
      exact List.mem_append_left _ (hm.resolve_left fun h => by simp [Dec.code] at h)
    · exact List.mem_append_right _ (push_mem_methodRoutineCode ms _ _ h)

theorem push_mem_classRoutineCode : ∀ (cs : List Class) (k f : Nat), Instantiates (cs.flatMap Class.nodes) →
    .push M ∈ classRoutineCode M k f cs
  | [], _, _, h => absurd h not_instantiates_nil
  | c :: cs, k, f, h => by
    rcases instantiates_append.1 h with h | h
    · exact List.mem_append_left _ (push_mem_methodRoutineCode M c.methods k f h)
    · exact List.mem_append_right _ (push_mem_classRoutineCode cs _ _ h)

/-- **Each instantiation in a program pushes the size of the memory**, also in a routine that is never called. -/
theorem Program.push_mem_code {p : Program} (h : Instantiates p.nodes) : .push M ∈ p.code M := by
  rcases instantiates_append.1 h with h | hbody
  · cases p with
    | expr body => exact absurd h not_instantiates_nil
    | letIn cs ds body =>
      simp only [code, List.mem_append]
      rcases instantiates_append.1 h with h | h
      · exact .inl (.inr (push_mem_classRoutineCode M cs 0 0 h))
      · rcases push_mem_localCode M ds (classLabels cs) (classRoutines cs) h with h | h
        · exact .inl (.inl (.inl (.inl (.inr h))))
        · exact .inr h
  · have hmem := fun k => p.body.push_mem_code M k hbody
    cases p with
    | expr body => exact List.mem_append_left _ (hmem 0)
    | letIn cs ds body =>
      simp only [code, List.mem_append]
      exact .inl (.inl (.inl (.inr (hmem _))))

end

/-! ## Memories that are too large -/

section

variable {source : List Char} {limits : Limits} {c : Compilation}

/-- **A line that does not fit 32 bits pushes the size of the memory.** -/
theorem eq_push_of_not_fits {M : Nat} {p : Program} (h : ∀ n ∈ p.nodes, n.OffsetsFit) {l : Line} (hl : l ∈ p.code M)
    (hfit : ¬l.Fits) : l = .push M ∧ ∃ n ∈ p.nodes, n.isNew = true := by
  obtain ⟨i, hi⟩ := List.mem_iff_getElem?.1 hl
  have hsmall := (wellFormed_program (Nat.zero_le maxInt32) h).fits
  rcases (p.alike_code M 0).lines i with he | ⟨hp, -⟩
  · exact absurd (hsmall l (List.mem_of_getElem? (he ▸ hi))) hfit
  · refine ⟨Option.some.inj (hi.symm.trans hp.getElem?), ?_⟩
    obtain ⟨-, k, cls, e, args, -, -, hmem, -, -⟩ := hp
    exact ⟨_, hmem, rfl⟩

/-- Code that does not push the size of the memory is the same for all memories. -/
theorem Program.code_eq_of_notMem {M : Nat} {p : Program} (h : .push M ∉ p.code M) (m : Nat) : p.code M = p.code m := by
  refine List.ext_getElem? fun i => ((p.alike_code M m).lines i).resolve_right fun ⟨hp, _⟩ => h ?_
  exact List.mem_of_getElem? hp.getElem?

theorem not_fitsWord_of_lt {n : Nat} (h : maxInt32 < n) : ¬FitsWord n := fun hn => by
  have := hn.2
  omega

/-- **The assembler refuses the first line that pushes the size**, where it is no 32-bit integer. -/
theorem Program.assemble_code_unfit {M : Nat} {p : Program} (h : ∀ n ∈ p.nodes, n.OffsetsFit) (hM : maxInt32 < M)
    (hmem : .push M ∈ p.code M) (limit : Nat) :
    Assembly.assemble (p.code M).text limit =
      .error (.missingOperand Instr.pushMnemonic ((p.code M).idxOf (.push M) + 1)) := by
  obtain ⟨pre, post, hsplit, hpre⟩ := List.eq_append_cons_of_mem hmem
  -- before that line the code is that for a small memory
  have hfit : ∀ l ∈ pre, l.Fits := fun l hl => by
    by_contra hn
    have hlcode : l ∈ p.code M := hsplit ▸ List.mem_append_left _ hl
    rw [(eq_push_of_not_fits h hlcode hn).1] at hl
    exact hpre hl
  have honce : ∀ l, pre.count (.define l) ≤ 1 := fun l => by
    have hle : pre.count (.define l) ≤ (p.code M).count (.define l) :=
      hsplit ▸ (List.sublist_append_left pre _).count_le _
    rw [count_define_program] at hle
    exact Nat.le_trans hle (l.among_le_one _ _ _ _)
  have hline : (p.code M).idxOf (.push M) = pre.length := by
    rw [hsplit, List.idxOf_append_of_notMem hpre, List.idxOf_cons_self]
    rfl
  rw [hline, hsplit]
  exact assemble_unfit hfit honce (not_fitsWord_of_lt hM) post limit

/-- **What running comes to on a memory that cannot be addressed.** A program without instantiations is refused for the
size of its memory.  One with an instantiation, wherever it stands, is refused by the assembler, at the first line that
pushes that size.  Nothing runs in either case. -/
theorem run_unaddressable (hc : compile source limits.memory = .ok c) (hm : maxInt32 < limits.memory)
    (hl : limits.code ≤ maxInt32) (hs : c.code.size ≤ limits.code) (fuel : Nat) :
    (.push limits.memory ∈ c.code ↔ ∃ n ∈ c.program.nodes, n.isNew = true) ∧
    run fuel source limits = .error (.execute (if .push limits.memory ∈ c.code then
      .assemble (.missingOperand Instr.pushMnemonic (c.code.idxOf (.push limits.memory) + 1))
      else .unaddressable limits.memory)) := by
  obtain ⟨p, ty, hp, hd, -, rfl⟩ := compile_ok hc
  have hfits := Program.resolve_fits (offsetsFit_of_parse hp)
  have hcomplete := (Program.resolve_complete (Program.nameErrors_eq_nil hd)).1
  have hrun : ∀ e, execute fuel (p.resolve.code limits.memory).text limits = .error e →
      run fuel source limits = .error (.execute e) := by
    intro e he
    rw [run, hc]
    change (execute fuel (p.resolve.code limits.memory).text limits).mapError _ >>= _ = _
    rw [he]
    rfl
  have hpush : .push limits.memory ∈ p.resolve.code limits.memory ↔ ∃ n ∈ p.resolve.nodes, n.isNew = true := by
    constructor
    · intro h
      exact (eq_push_of_not_fits hfits h (not_fitsWord_of_lt hm)).2
    · rintro ⟨n, hn, hnew⟩
      exact Program.push_mem_code _ ⟨n, hn, hnew, hcomplete n hn⟩
  refine ⟨hpush, ?_⟩
  dsimp only
  split
  · rename_i hmem
    refine hrun _ ?_
    rw [execute, Program.assemble_code_unfit hfits hm hmem]
    rfl
  · rename_i hmem
    -- without such a line the code is that for a small memory
    have hwell : (p.resolve.code limits.memory).WellFormed := by
      rw [Program.code_eq_of_notMem hmem 0]
      exact wellFormed_program (Nat.zero_le _) hfits
    refine hrun _ ?_
    rw [execute, hwell.assemble_text (Nat.le_trans hs hl), if_pos hs]
    show Machine.start limits.memory >>= _ = _
    rw [Machine.start, if_neg (Nat.not_le.2 hm)]
    rfl

/-- Memories of two gigabytes. -/
def tooLarge : Limits := ⟨2147483648, 10000⟩

/-- An instantiation of a class without fields. -/
def newSource : List Char := "let class A () { } in new A();".toList

/-- **In two gigabytes the size is missed where it is pushed**, in the third line of the code. -/
theorem newSource_missingOperand : ∃ c, compile newSource tooLarge.memory = .ok c ∧ c.code.size ≤ tooLarge.code ∧
    run 0 newSource tooLarge = .error (.execute (.assemble (.missingOperand Instr.pushMnemonic 3))) := by
  have hcompiles : (compile newSource tooLarge.memory).toOption.any (fun c => decide (c.code.size ≤ tooLarge.code ∧
      .push tooLarge.memory ∈ c.code ∧ c.code.idxOf (.push tooLarge.memory) = 2)) = true := by decide +kernel
  obtain ⟨c, hc, h⟩ := exists_of_any hcompiles
  obtain ⟨hsize, hmem, hindex⟩ := of_decide_eq_true h
  have hrun := (run_unaddressable hc (by decide) (by decide) hsize 0).2
  rw [if_pos hmem, hindex] at hrun
  exact ⟨c, hc, hsize, hrun⟩

end

end FoolLang
