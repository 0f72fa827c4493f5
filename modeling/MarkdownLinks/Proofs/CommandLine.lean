import MarkdownLinks.CommandLine
import MarkdownLinks.Proofs.Command
import MarkdownLinks.Proofs.Text.Control

/-!
The command line on one text: what goes to standard output, what is written back to the file, and what is made of the same
text on standard input.
-/

namespace MarkdownLinks
namespace CommandLine

variable {argv : List Text} {files : FileTree} {a : Arguments} {job : Job} {text markdown : Text} {stats : Stats}

/-! ### Reading arguments -/

theorem readArguments_file (a : Arguments) {file : Text} (plain : file.head? ≠ some '-') (rest : List Text) :
    readArguments a (file :: rest) = readArguments { a with files := a.files ++ [file] } rest := by
  have apart : file ≠ ['-', '-'] := by
    rintro rfl
    exact plain rfl
  conv_lhs => unfold readArguments
  rw [if_neg apart, if_pos (by simp [plain])]

theorem readArguments_flag {a a' : Arguments} {arg : Text} (option : arg.head? = some '-' ∧ 2 ≤ arg.length)
    (other : arg ≠ ['-', '-'] ∧ arg ≠ widthOption ∧ assigned? arg = none)
    (flag : (if arg.startsWith ['-', '-'] then longFlag? a arg else arg.tail.foldlM shortFlag? a) = some a')
    (rest : List Text) : readArguments a (arg :: rest) = readArguments a' rest := by
  have more : ¬ (decide (arg.head? ≠ some '-') || decide (arg.length = 1)) = true := by
    simp only [option.1, ne_eq, not_true_eq_false, decide_false, Bool.false_or, decide_eq_true_eq]
    omega
  conv_lhs => unfold readArguments
  simp only [if_neg other.1, if_neg more, if_neg other.2.1, other.2.2, flag]

theorem readArguments_inPlace (a : Arguments) (rest : List Text) :
    readArguments a (['-', 'w'] :: rest) = readArguments { a with inPlace := true } rest :=
  readArguments_flag (by decide) (by decide) rfl rest

theorem readArguments_stats (a : Arguments) (rest : List Text) :
    readArguments a ("--stats".toList :: rest) = readArguments { a with stats := true } rest :=
  readArguments_flag (by decide) (by decide) rfl rest

/-- The options that ask for a column budget and for statistics. -/
def spelled (width : Option Text) (stats : Bool) : List Text :=
  width.toList.flatMap (fun w => [widthOption, w]) ++ if stats then ["--stats".toList] else []

theorem readArguments_spelled (width : Option Text) (stats : Bool) (a : Arguments) (rest : List Text) :
    readArguments a (spelled width stats ++ rest) =
      readArguments { a with width := width <|> a.width, stats := stats || a.stats } rest := by
  cases stats with
  | false => cases width <;> rfl
  | true => cases width <;> exact readArguments_stats _ rest

/-! ### What is to be done -/

/-- The column budget that arguments ask for, if it is a number at all. -/
def Arguments.columnWidth (a : Arguments) : Option Int := a.width.bind Numeral.readArgument?

/-- Arguments that ask for a conversion, with no budget or a positive one. -/
structure Arguments.Converting (a : Arguments) : Prop where
  eager : a.eager = .none
  width : ∀ w ∈ a.width, ∃ n, Numeral.readArgument? w = some n ∧ 0 < n

theorem plan_eq (asked : readArguments .none argv = some a) (converting : a.Converting) (files : FileTree) :
    plan files argv =
      if a.files.length > 1 then .error (refuse files "Only one file may be specified.".toList)
      else if a.inPlace && (a.files.head?.filter (· ≠ ['-'])).isNone then
        .error (refuse files "The -w flag cannot be used with standard input.".toList)
      else .ok ⟨a.files.head?.filter (· ≠ ['-']), a.inPlace, a.stats, a.columnWidth⟩ := by
  rw [plan]
  simp only [asked, converting.eager, Arguments.columnWidth]
  cases given : a.width with
  | none => rfl
  | some w =>
    obtain ⟨n, read, -⟩ := converting.width w given
    simp only [Option.bind_some, read]

/-- The request that a job makes. -/
def Job.request (job : Job) (text : Text) : Request :=
  ⟨text, match job.columnWidth with
    | some n => .integer n
    | none => .null, job.path, job.inPlace, []⟩

theorem converts_of_transformText (positive : ∀ n ∈ job.columnWidth, 0 < n)
    (transformed : transformText text job.columnWidth = .ok (markdown, stats)) :
    (job.request text).Converts markdown stats := by
  have read := (job.request text).options_eq
  cases width : job.columnWidth with
  | none =>
    refine ⟨.none, ?_, ?_⟩
    · rw [read, Job.request, width]
      rfl
    · rw [width] at transformed
      exact transformed
  | some n =>
    have above := positive n width
    have budget : Options.budget ⟨some n.toNat, by intro w hw; cases hw; omega⟩ = some n :=
      congrArg some (Int.toNat_of_nonneg (Int.le_of_lt above))
    rw [width, ← budget] at transformed
    refine ⟨_, ?_, transformed⟩
    rw [read, Job.request, width]
    simp only [Options.ofSetting, Setting.integer?, Options.ofWidth, bind, Except.bind, dif_pos above]

theorem convert_request (job : Job) (text : Text) (files : FileTree) : job.convert text files =
    match (job.request text).run files with
    | .error failure => .error failure.error
    | .ok (_, run) => match run.summary? with
      | some summary => .ok (job.report summary run.files)
      | none => .ok (misuse run.files) := by
  rfl

/-- A job whose text is converted and whose file can be written reports on the conversion. -/
theorem convert_eq {files' : FileTree} {written : Bool} (converts : (job.request text).Converts markdown stats)
    (saved : (job.request text).save files markdown = .ok (files', written)) :
    job.convert text files =
      .ok (job.report ((job.request text).done ((job.request text).outputOf markdown written stats)) files') := by
  rw [convert_request, Request.run_converted converts saved]
  rfl

/-- What a job reports that has succeeded without warnings. -/
theorem report_success {s : Summary} (success : s.success = true) (quiet : s.output.warnings = []) (files : FileTree) :
    job.report s files = ⟨0, if job.inPlace then [] else s.output.markdown.withoutControls,
      if job.stats then statsLines s.output.stats else [], files⟩ := by
  simp only [Job.report, success, quiet, if_true, List.flatMap_nil, List.nil_append]

theorem warnings_nil (text : Text) (named : job.inPlace → job.path.isSome) : (job.request text).warnings = [] := by
  rw [Request.warnings, if_neg]
  rw [Bool.and_eq_true, not_and]
  intro asked
  have given := named asked
  change ¬ job.path.isNone = true
  cases path : job.path with
  | none =>
    rw [path] at given
    exact nomatch given
  | some path => exact Bool.false_ne_true

/-- A job that can read its source, convert it and write its file succeeds. -/
theorem run_converted {stdin bytes : List UInt8} {content : Text} {files' : FileTree} {written : Bool}
    (planned : plan files argv = .ok job) (named : job.inPlace → job.path.isSome)
    (positive : ∀ n ∈ job.columnWidth, 0 < n) (source : job.source stdin files = .ok bytes)
    (decoded : Utf8.decode bytes = some content)
    (transformed : transformText content.readNewlines job.columnWidth = .ok (markdown, stats))
    (saved : (job.request content.readNewlines).save files markdown = .ok (files', written)) :
    run argv stdin files = .ok ⟨0, if job.inPlace then [] else markdown.withoutControls,
      if job.stats then statsLines stats else [], files'⟩ := by
  have converts := converts_of_transformText positive transformed
  have done := convert_eq converts saved
  rw [report_success rfl (warnings_nil _ named)] at done
  simp only [run, planned, source, decoded]
  exact done

theorem save_printing (text markdown : Text) (files : FileTree) (printing : job.inPlace = false) :
    (job.request text).save files markdown = .ok (files, false) := by
  refine Request.save_unasked ?_ files
  change (job.inPlace && job.path.isSome && markdown ≠ text) = false
  rw [printing, Bool.false_and, Bool.false_and]

/-- A file that could be read can be written back. -/
theorem save_writing {file : Text} {bytes : List UInt8} (text markdown : Text) (writing : job.inPlace = true)
    (named : job.path = some file) (read : files.read (Path.ofText file) = .ok bytes) :
    ∃ files' written, (job.request text).save files markdown = .ok (files', written) ∧
      if markdown = text then files' = files
      else files.Overwritten (Path.ofText file) (Utf8.encode markdown) files' := by
  by_cases same : markdown = text
  · refine ⟨files, false, Request.save_unasked ?_ files, by rw [if_pos same]⟩
    change (_ && _ && decide (markdown ≠ text)) = false
    rw [same, decide_eq_false (not_not_intro rfl), Bool.and_false]
  · obtain ⟨files', put⟩ := FileTree.write_of_read read (Utf8.encode markdown)
    have asked : ((job.request text).inPlace && markdown ≠ (job.request text).text) = true := by
      change (job.inPlace && decide (markdown ≠ text)) = true
      rw [writing, decide_eq_true same]
      rfl
    have encoded : (job.request text).encode? markdown = some (Utf8.encode markdown) := Request.encode?_of_whole rfl markdown
    refine ⟨files', true, ?_, ?_⟩
    · rw [Request.save_asked named asked, encoded, Option.getD_some, put]
      rfl
    · rw [if_neg same]
      exact FileTree.overwritten_of_write put

/-! ### One text, three ways -/

/-- One text in a file, and three command lines that convert it: to standard output, back to the file, and from standard
input. The file can be read and is UTF-8, and the text can be converted. -/
structure Converted (printing writing piped : List Text) (files : FileTree) (a : Arguments) (file : Text)
    (bytes : List UInt8) (content markdown : Text) (stats : Stats) : Prop where
  converting : a.Converting
  plain : a.inPlace = false
  named : a.files = [file]
  other : file ≠ ['-']
  printing : readArguments .none printing = some a
  writing : readArguments .none writing = some { a with inPlace := true }
  piped : readArguments .none piped = some { a with files := [] }
  read : files.read (Path.ofText file) = .ok bytes
  decoded : Utf8.decode bytes = some content
  transformed : transformText content.readNewlines a.columnWidth = .ok (markdown, stats)

theorem Arguments.Converting.positive (converting : a.Converting) : ∀ n ∈ a.columnWidth, 0 < n := by
  intro n asked
  obtain ⟨w, given, read⟩ := Option.bind_eq_some_iff.mp asked
  obtain ⟨n', read', above⟩ := converting.width w given
  obtain rfl := Option.some.inj (read.symm.trans read')
  exact above

namespace Converted

variable {printing writing piped : List Text} {file content : Text} {bytes : List UInt8}

theorem found (given : Converted printing writing piped files a file bytes content markdown stats) :
    a.files.head?.filter (· ≠ ['-']) = some file := by
  simp [given.named, given.other]

theorem run_printing (given : Converted printing writing piped files a file bytes content markdown stats)
    (stdin : List UInt8) : run printing stdin files =
      .ok ⟨0, markdown.withoutControls, if a.stats then statsLines stats else [], files⟩ := by
  have planned : plan files printing = .ok ⟨some file, false, a.stats, a.columnWidth⟩ := by
    rw [plan_eq given.printing given.converting, given.found, given.named, given.plain]
    rfl
  have saved := save_printing content.readNewlines markdown files
    (rfl : Job.inPlace ⟨some file, false, a.stats, a.columnWidth⟩ = false)
  exact run_converted planned (fun asked => nomatch asked) given.converting.positive given.read given.decoded
    given.transformed saved

theorem run_writing (given : Converted printing writing piped files a file bytes content markdown stats) :
    ∃ files', (∀ stdin, run writing stdin files = .ok ⟨0, [], if a.stats then statsLines stats else [], files'⟩) ∧
      if markdown = content.readNewlines then files' = files
      else files.Overwritten (Path.ofText file) (Utf8.encode markdown) files' := by
  have converting : Arguments.Converting { a with inPlace := true } := ⟨given.converting.eager, given.converting.width⟩
  have planned : plan files writing = .ok ⟨some file, true, a.stats, a.columnWidth⟩ := by
    rw [plan_eq given.writing converting, given.found]
    simp only [given.named]
    rfl
  obtain ⟨files', written, saved, effect⟩ := save_writing content.readNewlines markdown
    (rfl : Job.inPlace ⟨some file, true, a.stats, a.columnWidth⟩ = true) rfl given.read
  refine ⟨files', fun stdin => ?_, effect⟩
  exact run_converted planned (fun _ => rfl) given.converting.positive given.read given.decoded given.transformed saved

theorem run_piped (given : Converted printing writing piped files a file bytes content markdown stats)
    (others : FileTree) : run piped bytes others =
      .ok ⟨0, markdown.withoutControls, if a.stats then statsLines stats else [], others⟩ := by
  have converting : Arguments.Converting { a with files := [] } := ⟨given.converting.eager, given.converting.width⟩
  have planned : plan others piped = .ok ⟨none, false, a.stats, a.columnWidth⟩ := by
    rw [plan_eq given.piped converting]
    simp only [given.plain]
    rfl
  have saved := save_printing content.readNewlines markdown others
    (rfl : Job.inPlace ⟨none, false, a.stats, a.columnWidth⟩ = false)
  exact run_converted planned (fun asked => nomatch asked) given.converting.positive rfl given.decoded given.transformed
    saved

end Converted

/-- The three agree on the converted text, but what is printed goes out without control sequences. Printing leaves all files
alone; writing changes the file that was read, to the converted text and only if that differs from what was read. -/
theorem run_three_ways {printing writing piped : List Text} {file content : Text} {bytes : List UInt8}
    (given : Converted printing writing piped files a file bytes content markdown stats) :
    let stderr := if a.stats then statsLines stats else []
    (∀ stdin, run printing stdin files = .ok ⟨0, markdown.withoutControls, stderr, files⟩) ∧
      (∃ files', (∀ stdin, run writing stdin files = .ok ⟨0, [], stderr, files'⟩) ∧
        if markdown = content.readNewlines then files' = files
        else files.Overwritten (Path.ofText file) (Utf8.encode markdown) files') ∧
      (∀ others, run piped bytes others = .ok ⟨0, markdown.withoutControls, stderr, others⟩) ∧
      (markdown.withoutControls = markdown ↔ ∀ s, s <:+ markdown → Text.controlLength s = 0) :=
  ⟨given.run_printing, given.run_writing, given.run_piped, markdown.withoutControls_eq_self_iff⟩

def oneFile (name content : Text) : FileTree := ⟨[(Path.ofText name, .file (Utf8.encode content))]⟩

theorem carriageReturns_three_ways :
    let files := oneFile "a.md".toList "[a](u)\r\n".toList
    ∃ files', run [['a', '.', 'm', 'd'], "--stats".toList] [] files =
        .ok ⟨0, "[a]\n\n[a]: u\n".toList, statsLines ⟨1, 0, 1⟩, files⟩ ∧
      run [['-', 'w'], ['a', '.', 'm', 'd'], "--stats".toList] [] files = .ok ⟨0, [], statsLines ⟨1, 0, 1⟩, files'⟩ ∧
      files.Overwritten (Path.ofText "a.md".toList) (Utf8.encode "[a]\n\n[a]: u\n".toList) files' ∧
      run ["--stats".toList] (Utf8.encode "[a](u)\r\n".toList) ⟨[]⟩ =
        .ok ⟨0, "[a]\n\n[a]: u\n".toList, statsLines ⟨1, 0, 1⟩, ⟨[]⟩⟩ := by
  have given : Converted [['a', '.', 'm', 'd'], "--stats".toList] [['-', 'w'], ['a', '.', 'm', 'd'], "--stats".toList]
      ["--stats".toList] (oneFile "a.md".toList "[a](u)\r\n".toList) ⟨["a.md".toList], false, true, none, none⟩
      "a.md".toList (Utf8.encode "[a](u)\r\n".toList) "[a](u)\r\n".toList "[a]\n\n[a]: u\n".toList ⟨1, 0, 1⟩ := by
    refine ⟨⟨rfl, fun w asked => nomatch asked⟩, rfl, rfl, ?_, ?_, ?_, ?_, ?_, ?_, ?_⟩ <;> decide +kernel
  obtain ⟨printed, ⟨files', written, changed⟩, piped, -⟩ := run_three_ways given
  have plain : Text.withoutControls "[a]\n\n[a]: u\n".toList = "[a]\n\n[a]: u\n".toList := by decide +kernel
  have differs : ¬ "[a]\n\n[a]: u\n".toList = Text.readNewlines "[a](u)\r\n".toList := by decide +kernel
  rw [plain] at printed piped
  rw [if_neg differs] at changed
  exact ⟨files', printed [], written [], changed, piped ⟨[]⟩⟩

/-- A line with a word in red. -/
def redWord : Text := Text.escapeChar :: "[31mred".toList ++ Text.escapeChar :: "[0m\n".toList

/-- Colours stay in a text that is converted, and in the file that it is written back to. Printing takes them out. -/
theorem redWord_printed_plain :
    transformText redWord none = .ok (redWord, .zero) ∧
      (run ["a.md".toList] [] (oneFile "a.md".toList redWord)).map (·.stdout) = .ok "red\n".toList ∧
      "red\n".toList ≠ redWord ∧
      (run ["-w".toList, "a.md".toList] [] (oneFile "a.md".toList redWord)).map (·.files) =
        .ok (oneFile "a.md".toList redWord) := by
  decide +kernel

/-- The usual spelling of the three, for a file whose name does not look like an option. -/
theorem converted_spelled {width : Option Text} {shown : Bool} {file content : Text} {bytes : List UInt8}
    (plain : file.head? ≠ some '-') (positive : ∀ w ∈ width, ∃ n, Numeral.readArgument? w = some n ∧ 0 < n)
    (read : files.read (Path.ofText file) = .ok bytes) (decoded : Utf8.decode bytes = some content)
    (transformed : transformText content.readNewlines (width.bind Numeral.readArgument?) = .ok (markdown, stats)) :
    Converted (spelled width shown ++ [file]) (['-', 'w'] :: (spelled width shown ++ [file])) (spelled width shown) files
      ⟨[file], false, shown, width, none⟩ file bytes content markdown stats := by
  have other : file ≠ ['-'] := by
    rintro rfl
    exact plain rfl
  have parsed (a : Arguments) : readArguments a (spelled width shown ++ [file]) =
      some ⟨a.files ++ [file], a.inPlace, shown || a.stats, width <|> a.width, a.eager⟩ := by
    rw [readArguments_spelled, readArguments_file _ plain]
    rfl
  refine ⟨⟨rfl, positive⟩, rfl, rfl, other, ?_, ?_, ?_, read, decoded, transformed⟩
  · rw [parsed]
    simp [Arguments.none]
  · rw [readArguments_inPlace, parsed]
    simp [Arguments.none]
  · rw [← List.append_nil (spelled width shown), readArguments_spelled]
    simp [Arguments.none, readArguments]

/-- The three ways in the usual spelling, with or without a column budget and statistics. -/
theorem run_spelled {width : Option Text} {shown : Bool} {file content : Text} {bytes : List UInt8}
    (plain : file.head? ≠ some '-') (positive : ∀ w ∈ width, ∃ n, Numeral.readArgument? w = some n ∧ 0 < n)
    (read : files.read (Path.ofText file) = .ok bytes) (decoded : Utf8.decode bytes = some content)
    (transformed : transformText content.readNewlines (width.bind Numeral.readArgument?) = .ok (markdown, stats)) :
    let stderr := if shown then statsLines stats else []
    (∀ stdin, run (spelled width shown ++ [file]) stdin files = .ok ⟨0, markdown.withoutControls, stderr, files⟩) ∧
      (∃ files', (∀ stdin, run (['-', 'w'] :: (spelled width shown ++ [file])) stdin files = .ok ⟨0, [], stderr, files'⟩) ∧
        if markdown = content.readNewlines then files' = files
        else files.Overwritten (Path.ofText file) (Utf8.encode markdown) files') ∧
      ∀ others, run (spelled width shown) bytes others = .ok ⟨0, markdown.withoutControls, stderr, others⟩ :=
  have given := converted_spelled plain positive read decoded transformed
  ⟨given.run_printing, given.run_writing, given.run_piped⟩

end CommandLine
end MarkdownLinks
