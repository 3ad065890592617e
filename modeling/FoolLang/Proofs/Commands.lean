import FoolLang.Command.Answer
import FoolLang.Proofs.Words
/-!
# Commands — compiling and then executing is running

What `compile` writes is what `run` executes, and a file that was written is read back, so `exec` answers on the written
file what `run` answers on the source.  A source that `compile` refuses is refused by `run` in the same words, and
nothing is written then (`compile_then_exec_is_run`).
-/
namespace FoolLang

/-! ## Files -/

/-- **What is written elsewhere leaves a file as it was.** -/
theorem Files.read_write_ne {files after : Files} {path other text content : List Char}
    (hwrite : files.write path text = .ok after) (hne : Place.ofPath path ≠ Place.ofPath other)
    (hread : files.read other = .ok content) : after.read other = .ok content := by
  unfold Files.write at hwrite
  split at hwrite
  · cases hwrite
  · cases hwrite
  · rename_i g hg
    split at hwrite
    · cases hwrite
    · cases hwrite
      unfold Files.read at hread ⊢
      split at hread
      · cases hread
      · cases hread
      · rename_i f hf
        have hfg : f ≠ g := fun h => hne (by rw [hg, hf, h])
        rw [List.lookup_cons, beq_false_of_ne hfg]
        dsimp only
        rw [lookup_filter_ne hfg]
        split at hread
        · cases hread
        · rw [if_neg ‹_›]
          exact hread

/-! ## Arguments -/

namespace Command

variable {file out : List Char} {n : Nat}

/-- An argument that is a word by itself: not empty, and no option. -/
def IsWord (w : List Char) : Prop := w ≠ [] ∧ beginsOption w = false

theorem IsWord.form {w : List Char} (hw : IsWord w) (opts : List Opt) : form opts w = .word := by
  obtain ⟨-, hw⟩ := hw
  unfold beginsOption at hw
  unfold Command.form
  split at hw
  · rfl
  · cases hw
  · split <;> simp_all

theorem IsWord.add {w : List Char} (hw : IsWord w) {g : Given} (hg : g.file = none) :
    g.add (.word w) = .ok { g with file := some w } := by
  simp [Given.add, hg, hw.1]

theorem IsWord.addOutput {w : List Char} (hw : IsWord w) {g : Given} (hg : g.output = none) :
    g.add (.value .output w) = .ok { g with output := some w } := by
  simp [Given.add, hg, hw.1]

theorem isWord_decimal (n : Nat) : IsWord (Text.decimal n) := by
  refine ⟨Text.decimal_ne_nil n, ?_⟩
  unfold beginsOption
  split
  · rfl
  · rename_i cs _ h
    have hdigit := Text.isDigit_of_mem_decimal (n := n) (c := '-') (by rw [h]; exact List.mem_cons_self)
    cases hdigit
  · rfl

/-- A number of cells is read back from its digits. -/
theorem cells_decimal (hpos : 1 ≤ n) (hmax : n ≤ maxCells) : cells? (Text.decimal n) = some n := by
  have hdigits : ∀ c ∈ Text.decimal n, c.isDigit = true := fun _ h => Text.isDigit_of_mem_decimal h
  have hvalue : Text.ofDecimal (Text.decimal n) = n := Text.ofDecimal_decimal n
  obtain ⟨c, cs, hcs⟩ := List.exists_cons_of_ne_nil (Text.decimal_ne_nil n)
  rw [hcs] at hdigits hvalue ⊢
  have hplus : c ≠ '+' := by
    rintro rfl
    cases hdigits '+' List.mem_cons_self
  have hall : (c :: cs).all Char.isDigit = true := List.all_eq_true.2 hdigits
  unfold cells?
  dsimp only
  split
  · exact (hplus (List.cons.inj ‹_›).1).elim
  · rw [hall, hvalue]
    simp [hpos, hmax]

/-- The size of the memory as arguments. -/
def memoryArgs (n : Nat) : List (List Char) := ["--memory-size".toList, Text.decimal n]

theorem allItems_memoryArgs {opts : List Opt}
    (hopts : form opts "--memory-size".toList = .options [] (some .memorySize)) :
    allItems opts (memoryArgs n) = [.value .memorySize (Text.decimal n)] := by
  rw [memoryArgs, allItems, hopts]
  simp [(isWord_decimal n).2, allItems]

theorem addMemory (hpos : 1 ≤ n) (hmax : n ≤ maxCells) {g : Given} (hg : g.memory = none) :
    g.add (.value .memorySize (Text.decimal n)) = .ok { g with memory := some n } := by
  simp [Given.add, hg, cells_decimal hpos hmax]

/-- A subcommand after which a file is named. -/
theorem ofArgs_verb {w : List Char} {verb : Verb} {args : List (List Char)} {g : Given} (hw : IsWord w)
    (hverb : Verb.ofText? w = some verb) (hhelp : w ≠ helpWord)
    (hargs : Given.nothing.addAll (allItems verb.options args) = .ok g) (hfile : g.file = some file)
    (hmemory : g.memory = some n) : ofArgs (w :: args) = .ok ⟨verb.task g, file, n, g.verbose⟩ := by
  have hleading : leadingItems leadingOptions (w :: args) = ([], w :: args) := by rw [leadingItems, hw.form]
  have hnothing : Given.nothing.addAll [] = .ok Given.nothing := rfl
  unfold ofArgs
  rw [hleading]
  simp only [hnothing, bind, Except.bind, if_neg hhelp, hverb, hargs, hfile, hmemory]
  rfl

section

variable (hfile : IsWord file) (hpos : 1 ≤ n) (hmax : n ≤ maxCells)

include hfile hpos hmax

theorem ofArgs_compile (hout : IsWord out) :
    ofArgs ("compile".toList :: file :: "-o".toList :: out :: memoryArgs n) =
      .ok ⟨.compile (some out) false, file, n, false⟩ := by
  refine @ofArgs_verb _ _ _ .compile _ ⟨some n, false, false, some out, some file⟩ ⟨by decide, rfl⟩ rfl (by decide) ?_
    rfl rfl
  rw [allItems, hfile.form]
  dsimp only
  rw [allItems, show form Verb.compile.options "-o".toList = .options [] (some .output) from rfl]
  simp only [hout.2, allItems_memoryArgs (n := n) (show form Verb.compile.options _ = _ from rfl), List.nil_append]
  simp [Given.addAll, hfile.add, hout.addOutput, addMemory hpos hmax, Given.nothing]

theorem ofArgs_run : ofArgs ("run".toList :: file :: memoryArgs n) = .ok ⟨.run false, file, n, false⟩ := by
  refine @ofArgs_verb _ _ _ .run _ ⟨some n, false, false, none, some file⟩ ⟨by decide, rfl⟩ rfl (by decide) ?_ rfl rfl
  rw [allItems, hfile.form]
  simp only [allItems_memoryArgs (n := n) (show form Verb.run.options _ = _ from rfl)]
  simp [Given.addAll, hfile.add, addMemory hpos hmax, Given.nothing]

theorem ofArgs_exec : ofArgs ("exec".toList :: file :: memoryArgs n) = .ok ⟨.exec, file, n, false⟩ := by
  refine @ofArgs_verb _ _ _ .exec _ ⟨some n, false, false, none, some file⟩ ⟨by decide, rfl⟩ rfl (by decide) ?_ rfl rfl
  rw [allItems, hfile.form]
  simp only [allItems_memoryArgs (n := n) (show form Verb.exec.options _ = _ from rfl)]
  simp [Given.addAll, hfile.add, addMemory hpos hmax, Given.nothing]

end

end Command

/-! ## Two ways to run -/

section

open Command

variable {files : Files} {file out : List Char} {n : Nat} {compileArgs runArgs execArgs : List (List Char)}

theorem invoke_of_done {fuel : Nat} {args : List (List Char)} {c : Command} {r : Response} (hargs : ofArgs args = .ok c)
    (h : answer fuel c (files.read c.file) = some (.done r)) : invoke fuel args files = some (r, files) := by
  unfold invoke
  rw [hargs]
  dsimp only
  rw [h]

theorem invoke_of_none {fuel : Nat} {args : List (List Char)} {c : Command} (hargs : ofArgs args = .ok c)
    (h : answer fuel c (files.read c.file) = none) : invoke fuel args files = none := by
  unfold invoke
  rw [hargs]
  dsimp only
  rw [h]

theorem invoke_of_write {fuel : Nat} {args : List (List Char)} {c : Command} {path text shown : List Char}
    {after : Files} (hargs : ofArgs args = .ok c)
    (h : answer fuel c (files.read c.file) = some (.write path text shown))
    (hwrite : files.write path text = .ok after) :
    invoke fuel args files = some (written path shown (.ok ()), after) := by
  unfold invoke
  rw [hargs]
  dsimp only
  rw [h]
  dsimp only
  rw [hwrite]

/-- Executing a text writes no file. -/
theorem execAnswer_cases (fuel : Nat) (text : List Char) (memory : Nat) (shown : List Char) :
    execAnswer fuel text memory shown = none ∨ ∃ r, execAnswer fuel text memory shown = some (.done r) := by
  unfold execAnswer
  split
  · exact .inr ⟨_, rfl⟩
  · exact .inl rfl
  · exact .inr ⟨_, rfl⟩
  · exact .inr ⟨_, rfl⟩

/-- What is answered by executing a text, wherever it comes from. -/
theorem invoke_iff_execAnswer {fuel : Nat} {args : List (List Char)} {c : Command} {text : List Char} {memory : Nat}
    (hargs : ofArgs args = .ok c) (h : answer fuel c (files.read c.file) = execAnswer fuel text memory [])
    (result : Response) : invoke fuel args files = some (result, files) ↔
      execAnswer fuel text memory [] = some (.done result) := by
  rcases execAnswer_cases fuel text memory [] with hnone | ⟨r, hdone⟩
  · rw [invoke_of_none hargs (h.trans hnone), hnone]
    simp
  · rw [invoke_of_done hargs (h.trans hdone), hdone]
    simp

/-- **Compiling and then executing is running.**  If a source does not compile, running it ends with the same exit code
and the same report; neither prints anything, and no file is touched.  If it compiles, executing the file that was
written ends as running the source does, with the same exit code, the same output and the same report, whether the
source is run before or after. -/
theorem compile_then_exec_is_run (fuel : Nat)
    (hcompile : ofArgs compileArgs = .ok ⟨.compile (some out) false, file, n, false⟩)
    (hrun : ofArgs runArgs = .ok ⟨.run false, file, n, false⟩)
    (hexec : ofArgs execArgs = .ok ⟨.exec, out, n, false⟩)
    (hwritable : ∀ text, ∃ after, files.write out text = .ok after)
    (hother : Place.ofPath out ≠ Place.ofPath file) :
    ∃ r after, invoke fuel compileArgs files = some (r, after) ∧
      (r.code ≠ 0 → r.out = [] ∧ after = files ∧ invoke fuel runArgs files = some (r, files)) ∧
      (r.code = 0 → ∀ result,
        (invoke fuel execArgs after = some (result, after) ↔ invoke fuel runArgs files = some (result, files)) ∧
        (invoke fuel execArgs after = some (result, after) ↔ invoke fuel runArgs after = some (result, after))) := by
  by_cases hcompiles : ∃ text c, files.read file = .ok text ∧ compile text n = .ok c
  · obtain ⟨text, c, hread, hc⟩ := hcompiles
    obtain ⟨after, hwrite⟩ := hwritable c.code.text
    have hanswer : answer fuel ⟨.compile (some out) false, file, n, false⟩ (files.read file) =
        some (.write out c.code.text []) := by
      simp only [answer, hread, hc, Option.getD_some, dump]
      rfl
    have hran : ∀ fs : Files, fs.read file = .ok text →
        answer fuel ⟨.run false, file, n, false⟩ (fs.read file) = execAnswer fuel c.code.text n [] := fun fs hfs => by
      simp only [answer, hfs, hc, dump]
      rfl
    have hexecuted : answer fuel ⟨.exec, out, n, false⟩ (after.read out) = execAnswer fuel c.code.text n [] := by
      simp only [answer, Files.read_write hwrite]
    have hkept := Files.read_write_ne hwrite hother hread
    refine ⟨_, after, invoke_of_write hcompile hanswer hwrite, fun h => (h rfl).elim, fun _ result => ⟨?_, ?_⟩⟩
    · rw [invoke_iff_execAnswer hexec hexecuted, invoke_iff_execAnswer hrun (hran files hread)]
    · rw [invoke_iff_execAnswer hexec hexecuted, invoke_iff_execAnswer hrun (hran after hkept)]
  · have hrefused : ∃ report, ∀ task, task = .compile (some out) false ∨ task = .run false →
        answer fuel ⟨task, file, n, false⟩ (files.read file) = some (.done ⟨1, [], report⟩) := by
      cases hread : files.read file with
      | error e => exact ⟨Report.ofRead (String.ofList file) e, fun _ _ => rfl⟩
      | ok text =>
        cases hc : compile text n with
        | ok c => exact (hcompiles ⟨text, c, hread, hc⟩).elim
        | error e =>
          refine ⟨Report.ofCompile (String.ofList file) text e, ?_⟩
          rintro task (rfl | rfl) <;> simp only [answer, hc, failed]
    obtain ⟨report, hreport⟩ := hrefused
    exact ⟨_, files, invoke_of_done hcompile (hreport _ (.inl rfl)),
      fun _ => ⟨rfl, rfl, invoke_of_done hrun (hreport _ (.inr rfl))⟩, fun h => nomatch h⟩

end

/-- A source that prints a number and then divides it by zero. -/
def quotientFiles : Files := [(⟨.working, "a".toList⟩, .text "print(7) / 0;".toList)]

theorem quotientFiles_executed : ∃ compiled after report,
    Command.invoke 100 ("compile".toList :: "a".toList :: "-o".toList :: "b".toList :: Command.memoryArgs 20)
      quotientFiles = some (compiled, after) ∧ compiled.code = 0 ∧
    Command.invoke 100 ("exec".toList :: "b".toList :: Command.memoryArgs 20) after =
      some (⟨1, "7\n".toList, report⟩, after) ∧
    Command.invoke 100 ("run".toList :: "a".toList :: Command.memoryArgs 20) quotientFiles =
      some (⟨1, "7\n".toList, report⟩, quotientFiles) := by
  have hcompile := @Command.ofArgs_compile "a".toList "b".toList 20 ⟨by decide, rfl⟩
    (by decide) (by decide) ⟨by decide, rfl⟩
  have hrun := @Command.ofArgs_run "a".toList 20 ⟨by decide, rfl⟩ (by decide) (by decide)
  have hexec := @Command.ofArgs_exec "b".toList 20 ⟨by decide, rfl⟩ (by decide) (by decide)
  have hplace : Place.ofPath "b".toList ≠ Place.ofPath "a".toList := by decide +kernel
  obtain ⟨compiled, after, hinvoke, -, hsame⟩ := @compile_then_exec_is_run quotientFiles _ _ _ _ _ _ 100 hcompile hrun
    hexec (fun text => ⟨_, rfl⟩) hplace
  have hcode : (Command.invoke 100 ("compile".toList :: "a".toList :: "-o".toList :: "b".toList ::
      Command.memoryArgs 20) quotientFiles).map (·.1.code) = some 0 := by decide +kernel
  have hran : (Command.invoke 100 ("run".toList :: "a".toList :: Command.memoryArgs 20) quotientFiles).map
      (fun x => (x.1.code, x.1.out, x.2)) = some (1, "7\n".toList, quotientFiles) := by decide +kernel
  rw [hinvoke] at hcode
  obtain ⟨⟨⟨code, shown, report⟩, files⟩, hresult, hfields⟩ := Option.map_eq_some_iff.1 hran
  simp only [Prod.mk.injEq] at hfields
  obtain ⟨rfl, rfl, rfl⟩ := hfields
  have hzero : compiled.code = 0 := Option.some.inj hcode
  exact ⟨compiled, after, report, hinvoke, hzero, ((hsame hzero _).1).2 hresult, hresult⟩

end FoolLang
