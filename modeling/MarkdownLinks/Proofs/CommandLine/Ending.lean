import MarkdownLinks.Proofs.CommandLine

/-!
How command lines end. One that fails, by its exit status or because an error breaks it off, has printed nothing and
changed no file. Whatever comes of it, no file changes but the one that `-w` has been given with.
-/

namespace MarkdownLinks
namespace CommandLine

/-- The end of a command line: its exit status or what has broken it off, what it has printed, and the files that it
leaves. -/
structure Ending where
  status : Except CommandError Nat
  stdout : Text
  stderr : Text
  files : FileTree

namespace Ending

def exit (r : Response) : Ending := ⟨.ok r.status, r.stdout, r.stderr, r.files⟩

/-- Nothing is printed before everything else has been done. -/
def broken (e : CommandError) (files : FileTree) : Ending := ⟨.error e, [], [], files⟩

/-- The response, if nothing has broken off the command line. -/
def response (e : Ending) : Except CommandError Response := do
  .ok ⟨← e.status, e.stdout, e.stderr, e.files⟩

end Ending

/-- How a job ends whose text has been read. What breaks it off leaves the files as the command has left them. -/
def Job.conclude (job : Job) (text : Text) (files : FileTree) : Ending :=
  let p := (job.request text).advance Request.allStages (Request.start files)
  match p.failure with
  | some failure => .broken failure.error failure.files
  | none => match p.run.summary? with
    | some summary => .exit (job.report summary p.run.files)
    | none => .exit (misuse p.run.files)

def ending (argv : List Text) (stdin : List UInt8) (files : FileTree) : Ending :=
  match plan files argv with
  | .error response => .exit response
  | .ok job => match job.source stdin files with
    | .error .nullByte => .broken (.file .nullByte) files
    | .error e => .exit (refuse files (readFailure (job.path.getD []) e))
    | .ok bytes => match Utf8.decode bytes with
      | none => .broken (.file .undecodable) files
      | some text => job.conclude text.readNewlines files

variable {argv : List Text} {files : FileTree} {job : Job} {text : Text}

theorem conclude_response (job : Job) (text : Text) (files : FileTree) :
    (job.conclude text files).response = job.convert text files := by
  rw [convert_request, Request.run, Request.pull_eq_advance, Job.conclude]
  generalize (job.request text).advance Request.allStages (Request.start files) = p
  cases p.failure with
  | some failure => rfl
  | none =>
    change Ending.response (match p.run.summary? with
      | some summary => .exit (job.report summary p.run.files)
      | none => .exit (misuse p.run.files)) = match p.run.summary? with
      | some summary => .ok (job.report summary p.run.files)
      | none => .ok (misuse p.run.files)
    cases p.run.summary? <;> rfl

theorem ending_response (argv : List Text) (stdin : List UInt8) (files : FileTree) :
    (ending argv stdin files).response = run argv stdin files := by
  unfold ending run
  cases plan files argv with
  | error response => rfl
  | ok job =>
    dsimp only
    cases job.source stdin files with
    | error e => cases e <;> rfl
    | ok bytes =>
      dsimp only
      cases Utf8.decode bytes with
      | none => rfl
      | some text => exact conclude_response job text.readNewlines files

/-! ### What can have changed -/

/-- Arguments that ask for one file to be overwritten. -/
structure Overwriting (argv : List Text) (file : Text) : Prop where
  asked : ∃ a, readArguments .none argv = some a ∧ a.inPlace ∧ a.files = [file]
  named : file ≠ ['-']

/-- No file has changed but the one that is to be overwritten. -/
def Spared (argv : List Text) (files files' : FileTree) : Prop :=
  files' = files ∨ ∃ file, Overwriting argv file ∧ ∃ markdown : Text,
    files.Overwritten (Path.ofText file) (Utf8.encode markdown) files'

/-- An end without effect if it is a failure, and without any on files but the one that is to be overwritten. -/
structure Ending.Contained (argv : List Text) (files : FileTree) (e : Ending) : Prop where
  failed : e.status ≠ .ok 0 → e.stdout = [] ∧ e.files = files
  spared : Spared argv files e.files

theorem Ending.Contained.of_unchanged {e : Ending} (kept : e.files = files) (silent : e.status ≠ .ok 0 → e.stdout = []) :
    e.Contained argv files :=
  ⟨fun failed => ⟨silent failed, kept⟩, Or.inl kept⟩

/-- What is planned: an answer that touches no file, or the job that the arguments ask for. -/
def Planned (argv : List Text) (files : FileTree) : Except Response Job → Prop
  | .error response => response.files = files ∧ (response.status ≠ 0 → response.stdout = [])
  | .ok job => ∃ a, readArguments .none argv = some a ∧ job.inPlace = a.inPlace ∧ a.files.length ≤ 1 ∧
    job.path = a.files.head?.filter (· ≠ ['-'])

theorem planned_files {a : Arguments} (asked : readArguments .none argv = some a) (columnWidth : Option Int) :
    Planned argv files
      (if a.files.length > 1 then .error (refuse files "Only one file may be specified.".toList)
      else if a.inPlace && (a.files.head?.filter (· ≠ ['-'])).isNone then
        .error (refuse files "The -w flag cannot be used with standard input.".toList)
      else .ok ⟨a.files.head?.filter (· ≠ ['-']), a.inPlace, a.stats, columnWidth⟩) := by
  by_cases many : a.files.length > 1
  · rw [if_pos many]
    exact ⟨rfl, fun _ => rfl⟩
  rw [if_neg many]
  split
  · exact ⟨rfl, fun _ => rfl⟩
  · exact ⟨a, asked, rfl, Nat.not_lt.mp many, rfl⟩

theorem planned (files : FileTree) (argv : List Text) : Planned argv files (plan files argv) := by
  unfold plan
  cases asked : readArguments .none argv with
  | none => exact ⟨rfl, fun _ => rfl⟩
  | some a =>
    dsimp only
    cases a.eager with
    | some e => cases e <;> exact ⟨rfl, fun failed => absurd rfl failed⟩
    | none =>
      dsimp only
      cases a.width with
      | none => exact planned_files asked none
      | some w =>
        rw [Option.bind_some]
        cases Numeral.readArgument? w with
        | none => exact ⟨rfl, fun _ => rfl⟩
        | some n => exact planned_files asked (some n)

/-- A job that has written has done so to the one file of its arguments. -/
theorem spared_of_rewritten {files' : FileTree} (planned : Planned argv files (.ok job))
    (rewritten : (job.request text).Rewritten files files') : Spared argv files files' := by
  obtain ⟨a, asked, inPlace, single, path⟩ := planned
  obtain ⟨file, markdown, -, named, writes, -, -, overwritten⟩ := rewritten
  refine Or.inr ⟨file, ?_, markdown, overwritten⟩
  change job.path = some file at named
  change job.inPlace = true at writes
  rw [path, Option.filter_eq_some_iff] at named
  obtain ⟨first, other⟩ := named
  refine ⟨⟨a, asked, inPlace ▸ writes, ?_⟩, of_decide_eq_true other⟩
  obtain ⟨rest, cut⟩ := List.head?_eq_some_iff.mp first
  rw [cut] at single ⊢
  rw [List.length_cons, Nat.succ_le_succ_iff, Nat.le_zero, List.length_eq_zero_iff] at single
  rw [single]

/-- A job reports success exactly when its options are accepted, and otherwise nothing has been done. -/
theorem report_contained (planned : Planned argv files (.ok job)) {files' : FileTree} {s : Summary}
    (told : (job.request text).Summarizes files files' s) :
    (Ending.exit (job.report s files')).Contained argv files := by
  rw [Request.Summarizes] at told
  cases valid : (job.request text).options with
  | error problems =>
    rw [valid] at told
    obtain ⟨failure, kept, -⟩ := told
    refine .of_unchanged ?_ fun _ => ?_
    · rw [Job.report, failure]
      exact kept
    · rw [Job.report, failure]
      rfl
  | ok options =>
    rw [valid] at told
    obtain ⟨success, -, -, -, effect⟩ := told
    have left : (Ending.exit (job.report s files')).status = .ok 0 ∧ (Ending.exit (job.report s files')).files = files' := by
      rw [Job.report, success]
      exact ⟨rfl, rfl⟩
    refine ⟨fun failed => absurd left.1 failed, ?_⟩
    rw [left.2]
    split at effect
    · exact spared_of_rewritten planned effect
    · exact Or.inl effect

theorem conclude_contained (planned : Planned argv files (.ok job)) (text : Text) :
    (job.conclude text files).Contained argv files := by
  obtain ⟨course, -⟩ := Request.advance_course (job.request text) files Request.allStages
  rw [Job.conclude]
  generalize (job.request text).advance Request.allStages (Request.start files) = p at course
  cases failed : p.failure with
  | some failure =>
    -- A text that has been read from a file can be encoded again.
    obtain kept | ⟨-, emptied⟩ := (course.broken failure failed).1.files_left
    · exact .of_unchanged kept fun _ => rfl
    · exact absurd emptied (Request.not_emptied rfl)
  | none =>
    dsimp only
    cases done : p.run.summary? with
    | none =>
      -- The end has been reached, since no command has as many stages as are asked for.
      have ended := course.ended.mpr ⟨failed, (job.request text).agenda_length⟩
      rw [done] at ended
      exact nomatch ended
    | some summary =>
      have told := course.summary summary done
      rw [Progress.files, failed] at told
      exact report_contained planned told

/-- A command line that fails has no effect. Whatever becomes of it, and wherever the conversion that it asks for is left
off, no file has changed but the one that is to be overwritten. -/
theorem ending_contained (argv : List Text) (stdin : List UInt8) (files : FileTree) :
    (ending argv stdin files).response = run argv stdin files ∧ (ending argv stdin files).Contained argv files ∧
      ∀ job, plan files argv = .ok job → ∀ text n,
        Spared argv files ((job.request text).advance n (Request.start files)).files := by
  have planned := planned files argv
  refine ⟨ending_response argv stdin files, ?_, fun job asked text n => ?_⟩
  · rw [ending]
    cases asked : plan files argv with
    | error response =>
      rw [asked] at planned
      obtain ⟨kept, silent⟩ := planned
      exact .of_unchanged kept fun failed => silent fun same => failed (congrArg Except.ok same)
    | ok job =>
      rw [asked] at planned
      dsimp only
      cases job.source stdin files with
      | error e => cases e <;> exact .of_unchanged rfl fun _ => rfl
      | ok bytes =>
        dsimp only
        cases Utf8.decode bytes with
        | none => exact .of_unchanged rfl fun _ => rfl
        | some text => exact conclude_contained planned text.readNewlines
  · rw [asked] at planned
    rcases (Request.advance_course (job.request text) files n).1.files with kept | ⟨-, rewritten⟩ | ⟨-, emptied⟩
    · exact Or.inl kept
    · exact spared_of_rewritten planned rewritten
    · exact absurd emptied (Request.not_emptied rfl)

end CommandLine
end MarkdownLinks
