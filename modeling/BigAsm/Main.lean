import Mathlib
import BigAsm.Splicing

/- The loop of main over the input files of a command line, and what it has to do with one file
   that includes them. Every round of the loop opens argv[1]. -/
namespace BigAsm
open Runs

/-- argv[1] to argv[argc-2]; the last argument names the output. -/
def inputFiles (argv : List Str) : List Str := (argv.drop 1).dropLast

def fileTokens (env : Env) (infile : Str) : Except Failure (List Token) := do
  let input ← loadFile env infile none
  split input

/-- One round: the file is read, split and assembled. The value is what assemble was given. -/
def assembleFile (env : Env) (depth : Nat) (infile : Str) : Asm (List Token) := do
  let tokens ← read (lift (fileTokens env infile))
  assemble env depth tokens (getRealpath env infile)
  return tokens

/-- for (int i = 1; i < argc-1; i++). The round reads argv[1], whatever i is; the value lists
    what the calls of assemble were given. -/
def mainLoop (env : Env) (depth : Nat) (argv : List Str) : Asm (List (List Token)) :=
  (inputFiles argv).mapM fun _ => assembleFile env depth (argv.getD 1 [])

def includes (line : BitVec 32) (files : List Str) : List Token :=
  files.flatMap fun f => [⟨.directive, line, lit ".include"⟩, ⟨.string, line, f⟩]

section Rounds
variable {env : Env} {depth : Nat}

theorem assembleFile_ok_iff {infile : Str} {tokens : List Token} {a b : Assembler} :
    assembleFile env depth infile a = .ok (tokens, b) ↔ fileTokens env infile = .ok tokens ∧
      assemble env depth tokens (getRealpath env infile) a = .ok ((), b) := by
  unfold assembleFile
  rw [stateT_bind_ok_iff]
  constructor
  · rintro ⟨tv, m, read, later⟩
    obtain ⟨ts, done, rfl⟩ := read_ok_iff.mp read
    obtain ⟨x, file, same⟩ := bind_ok_iff.mp done
    cases same
    obtain ⟨_, c, run, last⟩ := stateT_bind_ok_iff.mp later
    obtain ⟨rfl, rfl⟩ := stateT_pure_ok_iff.mp last
    exact ⟨file, run⟩
  · rintro ⟨file, run⟩
    refine ⟨tokens, a, read_ok_iff.mpr ⟨a.tokens, bind_ok_iff.mpr ⟨tokens, file, rfl⟩, rfl⟩, ?_⟩
    exact stateT_bind_ok_iff.mpr ⟨(), b, run, stateT_pure_ok_iff.mpr ⟨rfl, rfl⟩⟩

theorem loadFile_anywhere {f contents : Str} (found : loadFile env f none = .ok contents)
    (rpath : Option Str) : loadFile env f rpath = .ok contents := by
  unfold loadFile at found ⊢
  cases opened : env.fopen f with
  | none =>
    rw [opened] at found
    cases found
  | some text =>
    rw [opened] at found
    exact found

theorem rounds_lines (line : BitVec 32) (rpath : Option Str) {files : List Str}
    {passed : List (List Token)} {a b : Assembler}
    (run : files.mapM (assembleFile env depth) a = .ok (passed, b)) :
    ∃ xs t, Lines env rpath (expand env depth) (includes line files) xs ∧
      execAll a.state xs = .ok t ∧ { a with state := t } = b := by
  induction files generalizing a passed with
  | nil =>
    obtain ⟨-, rfl⟩ := stateT_pure_ok_iff.mp run
    exact ⟨[], a.state, .nil, rfl, rfl⟩
  | cons f files ih =>
    rw [List.mapM_cons] at run
    obtain ⟨tokens, m, first, later⟩ := stateT_bind_ok_iff.mp run
    obtain ⟨rest, m', rounds, last⟩ := stateT_bind_ok_iff.mp later
    obtain ⟨-, rfl⟩ := stateT_pure_ok_iff.mp last
    obtain ⟨file, assembled⟩ := assembleFile_ok_iff.mp first
    obtain ⟨contents, loaded, cut⟩ := bind_ok_iff.mp file
    obtain ⟨xs, t, listed, ran, rfl⟩ :=
      (assemble_expands env depth _ _ _ _ (assemble_aligned assembled)).mp assembled
    obtain ⟨ys, u, lines, ran', rfl⟩ := ih rounds
    have read := @readLine_include env rpath ⟨.directive, line, lit ".include"⟩ ⟨.string, line, f⟩
      contents tokens (includes line files) rfl rfl rfl (loadFile_anywhere loaded rpath) cut
    exact ⟨xs ++ ys, u, .cons read listed lines, run_append_iff.mpr ⟨t, ran, ran'⟩, rfl⟩

theorem rounds_include (line : BitVec 32) (rpath : Option Str) {f : Str} {files : List Str}
    {passed : List (List Token)} {a b : Assembler}
    (run : (f :: files).mapM (assembleFile env depth) a = .ok (passed, b)) :
    assemble env (depth + 1) (includes line (f :: files)) rpath a = .ok ((), b) := by
  have aligned : a.state.options.base &&& 0xF = 0 := by
    rw [List.mapM_cons] at run
    obtain ⟨tokens, m, first, -⟩ := stateT_bind_ok_iff.mp run
    exact assemble_aligned (assembleFile_ok_iff.mp first).2
  obtain ⟨xs, t, lines, ran, rfl⟩ := rounds_lines line rpath run
  exact (assemble_expands env (depth + 1) _ _ _ _ aligned).mpr
    ⟨xs, t, expand_succ_ok_iff.mpr lines, ran, rfl⟩

theorem rounds_same {first : Str} {files : List Str} (same : ∀ f ∈ files, f = first) :
    files.mapM (assembleFile env depth) = files.mapM fun _ => assembleFile env depth first := by
  induction files with
  | nil => rfl
  | cons f files ih =>
    obtain ⟨here, later⟩ := List.forall_mem_cons.mp same
    rw [List.mapM_cons, List.mapM_cons, ih later, here]

theorem inputFiles_line (program first outfile : Str) (others : List Str) :
    inputFiles (program :: first :: (others ++ [outfile])) = first :: others :=
  @List.dropLast_concat Str (first :: others) outfile

theorem mainLoop_passed {program first outfile : Str} {others : List Str}
    {passed : List (List Token)} {a b : Assembler}
    (run : mainLoop env depth (program :: first :: (others ++ [outfile])) a = .ok (passed, b)) :
    ∃ tokens, fileTokens env first = .ok tokens ∧
      passed = List.replicate (others.length + 1) tokens := by
  have rounds : ∀ {files : List Str} {passed : List (List Token)} {a : Assembler},
      files.mapM (fun _ => assembleFile env depth first) a = .ok (passed, b) →
      ∀ tokens, fileTokens env first = .ok tokens →
        passed = List.replicate files.length tokens := by
    intro files
    induction files with
    | nil =>
      intro passed a run tokens _
      exact (stateT_pure_ok_iff.mp run).1.symm
    | cons f files ih =>
      intro passed a run tokens file
      rw [List.mapM_cons] at run
      obtain ⟨tokens', m, here, later⟩ := stateT_bind_ok_iff.mp run
      obtain ⟨rest, m', following, last⟩ := stateT_bind_ok_iff.mp later
      obtain ⟨rfl, rfl⟩ := stateT_pure_ok_iff.mp last
      cases file.symm.trans (assembleFile_ok_iff.mp here).1
      rw [ih following tokens file]
      rfl
  rw [mainLoop, inputFiles_line] at run
  have opened : ∃ tokens, fileTokens env first = .ok tokens := by
    rw [List.mapM_cons] at run
    obtain ⟨tokens, m, here, -⟩ := stateT_bind_ok_iff.mp run
    exact ⟨tokens, (assembleFile_ok_iff.mp here).1⟩
  obtain ⟨tokens, file⟩ := opened
  exact ⟨tokens, file, rounds run tokens file⟩

end Rounds

theorem forall₂_replicate_iff {α β : Type} {R : α → β → Prop} {xs : List α} {y : β} :
    List.Forall₂ R xs (List.replicate xs.length y) ↔ ∀ x ∈ xs, R x y := by
  induction xs with
  | nil => simp
  | cons x xs ih => simp [List.replicate_succ, ih]

/-- What is asked of main: when its loop ends, assemble was given the tokens of every input file,
    in order, and the state is that of one file which includes them all. -/
structure InputsAssembled (env : Env) (argv : List Str) (depth : Nat) (options : Options)
    (passed : List (List Token)) (b : Assembler) : Prop where
  passed : List.Forall₂ (fun f tokens => fileTokens env f = .ok tokens) (inputFiles argv) passed
  included : ∀ line rpath, assemble env (depth + 1) (includes line (inputFiles argv)) rpath
    (Assembler.new options) = .ok ((), b)

theorem mainLoop_passed_iff {env : Env} {depth : Nat} {program first outfile : Str}
    {others : List Str} {passed : List (List Token)} {a b : Assembler}
    (run : mainLoop env depth (program :: first :: (others ++ [outfile])) a = .ok (passed, b)) :
    List.Forall₂ (fun f tokens => fileTokens env f = .ok tokens)
        (inputFiles (program :: first :: (others ++ [outfile]))) passed ↔
      ∀ f ∈ others, fileTokens env f = fileTokens env first := by
  obtain ⟨tokens, file, rfl⟩ := mainLoop_passed run
  rw [inputFiles_line, file]
  have each := @forall₂_replicate_iff _ _ (fun f tokens => fileTokens env f = .ok tokens)
    (first :: others) tokens
  rw [List.forall_mem_cons] at each
  exact each.trans (and_iff_right file)

def emptyOr (first : Str) : Env :=
  ⟨fun f => some (if f = first then [] else lit "a:"), id, fun _ => none⟩

theorem emptyOr_first (first : Str) : fileTokens (emptyOr first) first = .ok [] := by
  have loaded : loadFile (emptyOr first) first none = .ok [] := by simp [loadFile, emptyOr]
  exact bind_ok_iff.mpr ⟨[], loaded, by decide⟩

theorem emptyOr_other {first f : Str} (other : f ≠ first) :
    fileTokens (emptyOr first) f = .ok [⟨.label, 1, lit "a"⟩] := by
  have loaded : loadFile (emptyOr first) f none = .ok (lit "a:") := by
    simp [loadFile, emptyOr, other]
  exact bind_ok_iff.mpr ⟨lit "a:", loaded, by decide +kernel⟩

theorem emptyOr_accepted (program first outfile : Str) (others : List Str) :
    ∃ passed, mainLoop (emptyOr first) 1 (program :: first :: (others ++ [outfile]))
      (Assembler.new {}) = .ok (passed, Assembler.new {}) := by
  have empty : assembleFile (emptyOr first) 1 first (Assembler.new {}) =
      .ok ([], Assembler.new {}) := by
    refine assembleFile_ok_iff.mpr ⟨emptyOr_first first, ?_⟩
    exact (assemble_expands _ 1 _ _ _ _ (by decide)).mpr ⟨[], State.new {}, rfl, rfl, rfl⟩
  rw [mainLoop, inputFiles_line]
  generalize first :: others = files
  induction files with
  | nil => exact ⟨[], rfl⟩
  | cons f files ih =>
    obtain ⟨passed, rest⟩ := ih
    refine ⟨[] :: passed, ?_⟩
    rw [List.mapM_cons]
    exact stateT_bind_ok_iff.mpr ⟨[], _, empty, stateT_bind_ok_iff.mpr ⟨passed, _, rest, rfl⟩⟩

/-- For the files at hand, assemble is given the right tokens exactly when all inputs have those
    of the first one. main assembles its inputs, whatever the files hold, exactly when all of
    them are one file. -/
theorem main_assembles_inputs_iff (program first outfile : Str) (others : List Str) :
    (∀ env depth options passed b,
      mainLoop env depth (program :: first :: (others ++ [outfile])) (Assembler.new options) =
        .ok (passed, b) →
      (List.Forall₂ (fun f tokens => fileTokens env f = .ok tokens)
          (inputFiles (program :: first :: (others ++ [outfile]))) passed ↔
        ∀ f ∈ others, fileTokens env f = fileTokens env first)) ∧
    ((∀ env depth options passed b,
      mainLoop env depth (program :: first :: (others ++ [outfile])) (Assembler.new options) =
        .ok (passed, b) →
      InputsAssembled env (program :: first :: (others ++ [outfile])) depth options passed b) ↔
      ∀ f ∈ others, f = first) := by
  refine ⟨fun env depth options passed b run => mainLoop_passed_iff run, ?_, ?_⟩
  · intro every f mem
    by_contra other
    obtain ⟨passed, run⟩ := emptyOr_accepted program first outfile others
    have same := (mainLoop_passed_iff run).mp (every _ _ _ _ _ run).passed f mem
    rw [emptyOr_first, emptyOr_other other] at same
    cases same
  · intro same env depth options passed b run
    refine ⟨(mainLoop_passed_iff run).mpr fun f mem => congrArg _ (same f mem), ?_⟩
    intro line rpath
    have all := @rounds_same env depth first (first :: others) (List.forall_mem_cons.mpr ⟨rfl, same⟩)
    rw [mainLoop, inputFiles_line] at run
    rw [inputFiles_line]
    refine @rounds_include env depth line rpath first others passed _ _ ?_
    rw [all]
    exact run

def twoFiles : Env :=
  ⟨fun f => some (if f = lit "a" then lit "db 1" else lit "db 2"), id, fun _ => none⟩

theorem second_input_not_assembled : ∃ passed b,
    mainLoop twoFiles 1 [lit "bigassm", lit "a", lit "b", lit "out"] (Assembler.new {}) =
      .ok (passed, b) ∧
    ¬ InputsAssembled twoFiles [lit "bigassm", lit "a", lit "b", lit "out"] 1 {} passed b := by
  have facts : (mainLoop twoFiles 1 [lit "bigassm", lit "a", lit "b", lit "out"]
        (Assembler.new {})).isOk = true ∧
      (fileTokens twoFiles (lit "b")).toOption ≠ (fileTokens twoFiles (lit "a")).toOption := by
    decide +kernel
  obtain ⟨accepted, differ⟩ := facts
  generalize run : mainLoop twoFiles 1 [lit "bigassm", lit "a", lit "b", lit "out"]
    (Assembler.new {}) = r at accepted
  rcases r with e | ⟨passed, b⟩
  · cases accepted
  · refine ⟨passed, b, rfl, fun assembled => differ ?_⟩
    have same := (@mainLoop_passed_iff twoFiles 1 (lit "bigassm") (lit "a") (lit "out") [lit "b"]
      passed _ b run).mp assembled.passed
    exact congrArg _ (same (lit "b") (List.mem_singleton_self _))

end BigAsm
