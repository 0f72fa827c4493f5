import Mathlib.Data.List.Infix
import MarkdownLinks.Command
import MarkdownLinks.Proofs.FileTree

/-!
The command, asked for one announcement after the other. Wherever it is left, or breaks off, the stages announced so far
come in their order, there is a summary only after the end, and no file has changed but the one that the text came from. It
holds the converted text then, unless that cannot be encoded.
-/

namespace MarkdownLinks

/-! ### What stands for half of a surrogate pair -/

theorem isPrivateUse_iff {c : Char} : isPrivateUse c = true ↔ 0xE000 ≤ c.toNat ∧ c.toNat ≤ 0xF8FF := by
  rw [isPrivateUse, Bool.and_eq_true, decide_eq_true_eq, decide_eq_true_eq]

theorem inRanges_privateUse {c : Char} (privateUse : isPrivateUse c = true) {ranges : List (Nat × Nat)}
    (apart : ∀ range ∈ ranges, range.2 < 0xE000 ∨ 0xF8FF < range.1) : inRanges ranges c.toNat = false := by
  obtain ⟨lower, upper⟩ := isPrivateUse_iff.mp privateUse
  rw [inRanges, List.any_eq_false]
  intro range listed
  have beside := apart range listed
  rw [Bool.and_eq_true, decide_eq_true_eq, decide_eq_true_eq]
  omega

theorem foldChar_privateUse {c : Char} (privateUse : isPrivateUse c = true) : foldChar c = [c] := by
  obtain ⟨lower, upper⟩ := isPrivateUse_iff.mp privateUse
  have full : fullFolds.lookup c.toNat = none := by
    have apart : ∀ fold ∈ fullFolds, fold.1 < 0xE000 ∨ 0xF8FF < fold.1 := by decide +kernel
    rw [List.lookup_eq_none_iff]
    intro fold listed
    have beside := apart fold listed
    rw [bne_iff_ne]
    omega
  have simple : simpleFolds.find? (·.holds c.toNat) = none := by
    have apart : ∀ run ∈ simpleFolds, run.last < 0xE000 ∨ 0xF8FF < run.first := by decide +kernel
    rw [List.find?_eq_none]
    intro run listed
    have beside := apart run listed
    rw [FoldRun.holds, Bool.and_eq_true, Bool.and_eq_true, decide_eq_true_eq, decide_eq_true_eq]
    omega
  rw [foldChar, if_neg (by omega), full, simple]

/-- It is in no class of characters that the syntax knows, and has no other case. -/
theorem privateUse_classes {c : Char} (privateUse : isPrivateUse c = true) :
    isWhitespace c = false ∧ isPunctuation c = false ∧ digitValue? c = none ∧ foldChar c = [c] := by
  obtain ⟨lower, upper⟩ := isPrivateUse_iff.mp privateUse
  refine ⟨inRanges_privateUse privateUse (by decide), ?_, ?_, foldChar_privateUse privateUse⟩
  · rw [isPunctuation, if_neg (by omega)]
    exact inRanges_privateUse privateUse (by decide +kernel)
  · have apart : ∀ first ∈ digitZeros, first + 9 < 0xE000 ∨ 0xF8FF < first := by decide
    rw [digitValue?, Option.map_eq_none_iff, List.find?_eq_none]
    intro first listed
    have beside := apart first listed
    rw [Bool.and_eq_true, decide_eq_true_eq, decide_eq_true_eq]
    omega

/-! ### Announcements -/

/-- The stages of a conversion. -/
def Stage.all : List Stage := [.validating, .parsing, .rewriting, .rendering, .complete]

/-- The command after it has been asked for announcements: those that came, how it stands, and what broke it off. -/
structure Progress where
  stages : List Stage
  run : Run
  failure : Option Failure

def Progress.files (p : Progress) : FileTree :=
  match p.failure with
  | some failure => failure.files
  | none => p.run.files

namespace Request

/-- Asks for `n` announcements, as long as they come. A step that fails leaves the command as it was, but not the files. -/
def advance (r : Request) : Nat → Run → Progress
  | 0, run => ⟨[], run, none⟩
  | n + 1, run =>
    match r.step run with
    | .error failure => ⟨[], run, some failure⟩
    | .ok (none, next) => ⟨[], next, none⟩
    | .ok (some stage, next) => { r.advance n next with stages := stage :: (r.advance n next).stages }

variable {r : Request} {files files' : FileTree} {stages : List Stage} {run : Run} {markdown : Text} {failure : Failure}

theorem pull_eq_advance (r : Request) (n : Nat) (run : Run) : r.pull n run =
    match (r.advance n run).failure with
    | none => .ok ((r.advance n run).stages, (r.advance n run).run)
    | some failure => .error failure := by
  induction n generalizing run with
  | zero => rfl
  | succ n ih =>
    rw [pull, advance]
    cases step : r.step run with
    | error e => rfl
    | ok result =>
      obtain ⟨stage, next⟩ := result
      cases stage with
      | none => rfl
      | some stage =>
        simp only [bind, Except.bind, ih]
        cases (r.advance n next).failure <;> rfl

/-! ### What the command comes through -/

/-- The options that a request asks for. -/
def options (r : Request) : Except (List Problem) Options :=
  Options.ofSettings [(Options.widthName, r.columnWidth)]

theorem options_eq (r : Request) : r.options =
    match Options.ofSetting r.columnWidth with
    | .ok options => .ok options
    | .error reason => .error [⟨Options.widthName, reason⟩] := by
  have asked : ([(Options.widthName, r.columnWidth)].lookup Options.widthName).getD .null = r.columnWidth := by simp
  have known : [(Options.widthName, r.columnWidth)].filter (·.1 ≠ Options.widthName) = [] := by simp
  rw [Request.options, Options.ofSettings]
  simp only [asked, known]
  cases Options.ofSetting r.columnWidth <;> rfl

/-- The stages that a request announces if nothing breaks it off. -/
def agenda (r : Request) : List Stage :=
  match r.options with
  | .ok _ => Stage.all
  | .error _ => [.validating]

/-- All stages have come before as many as are asked for. -/
theorem agenda_length (r : Request) : r.agenda.length < allStages := by
  unfold agenda
  cases r.options with
  | error problems =>
    change 1 < 6
    omega
  | ok options =>
    change 5 < 6
    omega

/-- What a request makes of its text. -/
def Converts (r : Request) (markdown : Text) (stats : Stats) : Prop :=
  ∃ options, r.options = .ok options ∧ transformText r.text options.budget = .ok (markdown, stats)

theorem Converts.agenda {markdown : Text} {stats : Stats} (converts : r.Converts markdown stats) :
    r.agenda = Stage.all := by
  obtain ⟨options, valid, -⟩ := converts
  rw [Request.agenda, valid]

def outputOf (r : Request) (markdown : Text) (written : Bool) (stats : Stats) : Output :=
  ⟨[], r.warnings, r.path.getD [], markdown, markdown ≠ r.text, written, stats⟩

/-- The stages that have been announced where the command stands. -/
inductive Reached (r : Request) (files : FileTree) : List Stage → Run → Prop
  | ready : Reached r files [] (start files)
  | validating : Reached r files [.validating] ⟨.validating, files⟩
  | rejected {reason : Reason} (invalid : r.options = .error [⟨Options.widthName, reason⟩]) :
      Reached r files [.validating] ⟨.finished (r.rejected reason), files⟩
  | parsing {options : Options} (valid : r.options = .ok options) :
      Reached r files [.validating, .parsing] ⟨.parsing options, files⟩
  | rewriting {options : Options} {tree : Node} {fresh : Nat} (valid : r.options = .ok options)
      (parsed : Document.parseFrom 0 r.text = (tree, fresh)) :
      Reached r files [.validating, .parsing, .rewriting] ⟨.rewriting options tree fresh, files⟩
  | rendering {options : Options} {tree : Node} {fresh : Nat} {outcome : Outcome} (valid : r.options = .ok options)
      (parsed : Document.parseFrom 0 r.text = (tree, fresh))
      (transformed : tree.transform fresh options.budget = .ok outcome) :
      Reached r files [.validating, .parsing, .rewriting, .rendering]
        ⟨.rendering outcome.forest.document outcome.stats, files⟩
  | complete {markdown : Text} {stats : Stats} {files' : FileTree} {written : Bool} (converts : r.Converts markdown stats)
      (saved : r.save files markdown = .ok (files', written)) :
      Reached r files Stage.all ⟨.complete (r.outputOf markdown written stats), files'⟩
  | finished {markdown : Text} {stats : Stats} {files' : FileTree} {written : Bool} (converts : r.Converts markdown stats)
      (saved : r.save files markdown = .ok (files', written)) :
      Reached r files Stage.all ⟨.finished (r.done (r.outputOf markdown written stats)), files'⟩

/-- What can break the command off: the text cannot be converted, or the file cannot be written. -/
inductive Fails (r : Request) (files : FileTree) : Failure → Prop
  | convert {options : Options} {e : RenderError} (valid : r.options = .ok options)
      (stuck : transformText r.text options.budget = .error e) : Fails r files ⟨.render e, files⟩
  | save {markdown : Text} {stats : Stats} {failure : Failure} (converts : r.Converts markdown stats)
      (stuck : r.save files markdown = .error failure) : Fails r files failure

/-- What comes of a step from a state that the command has reached. -/
def Leads (r : Request) (files : FileTree) (stages : List Stage) (run : Run) :
    Except Failure (Option Stage × Run) → Prop
  | .ok (some stage, next) => Reached r files (stages ++ [stage]) next ∧ next.summary? = none
  | .ok (none, next) => Reached r files stages next ∧ next.summary?.isSome ∧ stages = r.agenda
  | .error failure => r.Fails files failure ∧ run.summary? = none ∧ stages ≠ Stage.all

theorem Reached.step (reached : Reached r files stages run) : r.Leads files stages run (r.step run) := by
  cases reached with
  | ready => exact ⟨.validating, rfl⟩
  | validating =>
    have read := r.options_eq
    rw [Request.step]
    cases setting : Options.ofSetting r.columnWidth with
    | error reason =>
      rw [setting] at read
      exact ⟨.rejected read, rfl, by rw [agenda, read]⟩
    | ok options =>
      rw [setting] at read
      exact ⟨.parsing read, rfl⟩
  | rejected invalid => exact ⟨.rejected invalid, rfl, by rw [agenda, invalid]⟩
  | parsing valid =>
    rw [Request.step]
    cases parsed : Document.parseFrom 0 r.text with
    | mk tree fresh => exact ⟨.rewriting valid parsed, rfl⟩
  | @rewriting options tree fresh valid parsed =>
    rw [Request.step]
    cases transformed : tree.transform fresh options.budget with
    | error e =>
      have stuck : transformText r.text options.budget = .error e := by
        simp only [transformText, parsed, transformed, bind, Except.bind]
      simp only [transformed]
      exact ⟨.convert valid stuck, rfl, by decide⟩
    | ok outcome =>
      simp only [transformed]
      exact ⟨.rendering valid parsed transformed, rfl⟩
  | @rendering options tree fresh outcome valid parsed transformed =>
    rw [Request.step]
    cases rendered : outcome.forest.document.render with
    | error e =>
      have stuck : transformText r.text options.budget = .error e := by
        simp only [transformText, parsed, transformed, rendered, bind, Except.bind]
      simp only [rendered]
      exact ⟨.convert valid stuck, rfl, by decide⟩
    | ok markdown =>
      have converts : r.Converts markdown outcome.stats := by
        refine ⟨options, valid, ?_⟩
        simp only [transformText, parsed, transformed, rendered, bind, Except.bind]
      simp only [rendered]
      cases saved : r.save files markdown with
      | error failure => exact ⟨.save converts saved, rfl, by decide⟩
      | ok result => exact ⟨.complete converts saved, rfl⟩
  | complete converts saved => exact ⟨.finished converts saved, rfl, converts.agenda.symm⟩
  | finished converts saved => exact ⟨.finished converts saved, rfl, converts.agenda.symm⟩

/-! ### Any number of announcements -/

/-- Where a command stands that had reached a state and was asked for `n` announcements more. -/
structure Stands (r : Request) (files : FileTree) (stages : List Stage) (n : Nat) (p : Progress) : Prop where
  reached : Reached r files (stages ++ p.stages) p.run
  broken : ∀ failure ∈ p.failure, r.Fails files failure ∧ stages ++ p.stages ≠ Stage.all
  ended : p.run.summary?.isSome → p.failure = none ∧ p.stages.length < n ∧ stages ++ p.stages = r.agenda
  asked : p.run.summary? = none → p.failure = none → p.stages.length = n

theorem Reached.advance (reached : Reached r files stages run) (unfinished : run.summary? = none) (n : Nat) :
    Stands r files stages n (r.advance n run) := by
  induction n generalizing stages run with
  | zero =>
    refine ⟨by simpa [Request.advance] using reached, fun _ failed => (nomatch failed), fun done => ?_, fun _ _ => rfl⟩
    change run.summary?.isSome = true at done
    rw [unfinished] at done
    exact nomatch done
  | succ n ih =>
    have led := reached.step
    rw [Request.advance]
    cases step : r.step run with
    | error failure =>
      rw [step] at led
      obtain ⟨fails, -, early⟩ := led
      refine ⟨by simpa using reached, fun failure' failed => ?_, fun done => ?_, fun _ failed => (nomatch failed)⟩
      · obtain rfl := Option.some.inj failed
        exact ⟨fails, by simpa using early⟩
      · change run.summary?.isSome = true at done
        rw [unfinished] at done
        exact nomatch done
    | ok result =>
      obtain ⟨stage, next⟩ := result
      rw [step] at led
      cases stage with
      | none =>
        obtain ⟨reached', done, whole⟩ := led
        refine ⟨by simpa using reached', fun _ failed => (nomatch failed), fun _ => ?_, fun unended _ => ?_⟩
        · exact ⟨rfl, Nat.succ_pos n, by simpa using whole⟩
        · change next.summary? = none at unended
          rw [unended] at done
          exact nomatch done
      | some stage =>
        obtain ⟨reached', still⟩ := led
        have later := ih reached' still
        have split : stages ++ stage :: (r.advance n next).stages = stages ++ [stage] ++ (r.advance n next).stages := by simp
        refine ⟨?_, fun failure failed => ?_, fun done => ?_, fun unended kept => ?_⟩
        · change Reached r files (stages ++ stage :: (r.advance n next).stages) _
          rw [split]
          exact later.reached
        · obtain ⟨fails, early⟩ := later.broken failure failed
          exact ⟨fails, fun whole => early (split.symm.trans whole)⟩
        · obtain ⟨kept, fewer, whole⟩ := later.ended done
          exact ⟨kept, Nat.succ_lt_succ fewer, split.trans whole⟩
        · exact congrArg Nat.succ (later.asked unended kept)

/-! ### What it leaves behind -/

/-- The file of a request holds what was made of its text. -/
def Rewritten (r : Request) (files files' : FileTree) : Prop :=
  ∃ path markdown stats, r.path = some path ∧ r.inPlace ∧ r.Converts markdown stats ∧ markdown ≠ r.text ∧
    files.Overwritten (Path.ofText path) (Utf8.encode markdown) files'

/-- The file of a request has lost its content to what was made of the text, since that cannot be encoded. -/
def Emptied (r : Request) (files files' : FileTree) : Prop :=
  ∃ path markdown stats, r.path = some path ∧ r.inPlace ∧ r.Converts markdown stats ∧ markdown ≠ r.text ∧
    r.encode? markdown = none ∧ files.Overwritten (Path.ofText path) [] files'

theorem encode?_eq_some {bytes : List UInt8} (encoded : r.encode? markdown = some bytes) :
    bytes = Utf8.encode markdown := by
  rw [encode?] at encoded
  split at encoded
  · exact nomatch encoded
  · exact (Option.some.inj encoded).symm

/-- A text in which nothing stands for half of a surrogate pair can be encoded. -/
theorem encode?_of_whole (whole : r.halves = []) (t : Text) : r.encode? t = some (Utf8.encode t) := by
  simp [encode?, whole]

theorem not_emptied (whole : r.halves = []) : ¬Emptied r files files' := by
  rintro ⟨-, markdown, -, -, -, -, -, lost, -⟩
  exact nomatch (encode?_of_whole whole markdown).symm.trans lost

theorem save_unasked (unasked : (r.inPlace && r.path.isSome && markdown ≠ r.text) = false) (files : FileTree) :
    r.save files markdown = .ok (files, false) := by
  rw [save]
  cases named : r.path with
  | none => rfl
  | some path =>
    rw [named, Option.isSome_some, Bool.and_true] at unasked
    simp only [unasked, Bool.false_eq_true, if_false]

theorem save_asked {path : Text} (named : r.path = some path) (asked : (r.inPlace && markdown ≠ r.text) = true)
    (files : FileTree) : r.save files markdown =
      match files.write (Path.ofText path) ((r.encode? markdown).getD []) with
      | .error e => .error ⟨.file e, files⟩
      | .ok left => if (r.encode? markdown).isSome then .ok (left, true) else .error ⟨.file .unencodable, left⟩ := by
  rw [save, named]
  exact if_pos asked

theorem save_cases {stats : Stats} {written : Bool} (converts : r.Converts markdown stats)
    (saved : r.save files markdown = .ok (files', written)) :
    written = (r.inPlace && r.path.isSome && markdown ≠ r.text) ∧
      if written then Rewritten r files files' else files' = files := by
  cases asked : r.inPlace && r.path.isSome && markdown ≠ r.text with
  | false =>
    rw [save_unasked asked] at saved
    obtain ⟨rfl, rfl⟩ := Prod.mk.inj (Except.ok.inj saved)
    exact ⟨rfl, rfl⟩
  | true =>
    simp only [Bool.and_eq_true, decide_eq_true_eq] at asked
    obtain ⟨⟨inPlace, given⟩, changed⟩ := asked
    obtain ⟨path, named⟩ := Option.isSome_iff_exists.mp given
    rw [save_asked named (by simp [inPlace, changed])] at saved
    cases put : files.write (Path.ofText path) ((r.encode? markdown).getD []) with
    | error e =>
      rw [put] at saved
      exact nomatch saved
    | ok left =>
      rw [put] at saved
      cases encoded : r.encode? markdown with
      | none =>
        rw [encoded] at saved
        exact nomatch saved
      | some bytes =>
        rw [encoded] at saved put
        obtain ⟨rfl, rfl⟩ := Prod.mk.inj (Except.ok.inj saved)
        obtain rfl := encode?_eq_some encoded
        exact ⟨rfl, path, markdown, stats, named, inPlace, converts, changed, FileTree.overwritten_of_write put⟩

/-- A file that cannot be written is left alone, but for what it loses to a text that cannot be encoded. -/
theorem save_failed {stats : Stats} (converts : r.Converts markdown stats) (stuck : r.save files markdown = .error failure) :
    failure.files = files ∨ failure.error = .file .unencodable ∧ Emptied r files failure.files := by
  cases asked : r.inPlace && r.path.isSome && markdown ≠ r.text with
  | false =>
    rw [save_unasked asked] at stuck
    exact nomatch stuck
  | true =>
    simp only [Bool.and_eq_true, decide_eq_true_eq] at asked
    obtain ⟨⟨inPlace, given⟩, changed⟩ := asked
    obtain ⟨path, named⟩ := Option.isSome_iff_exists.mp given
    rw [save_asked named (by simp [inPlace, changed])] at stuck
    cases put : files.write (Path.ofText path) ((r.encode? markdown).getD []) with
    | error e =>
      rw [put] at stuck
      obtain rfl := Except.error.inj stuck
      exact Or.inl rfl
    | ok left =>
      rw [put] at stuck
      cases encoded : r.encode? markdown with
      | some bytes =>
        rw [encoded] at stuck
        exact nomatch stuck
      | none =>
        rw [encoded] at stuck put
        obtain rfl := Except.error.inj stuck
        exact Or.inr ⟨rfl, path, markdown, stats, named, inPlace, converts, changed, encoded,
          FileTree.overwritten_of_write put⟩

theorem Fails.files_left (fails : r.Fails files failure) :
    failure.files = files ∨ failure.error = .file .unencodable ∧ Emptied r files failure.files := by
  cases fails with
  | convert valid stuck => exact Or.inl rfl
  | save converts stuck => exact save_failed converts stuck

theorem Reached.items (reached : Reached r files stages run) : stages <+: r.agenda := by
  have opening : [Stage.validating] <+: r.agenda := by
    unfold agenda
    cases r.options with
    | error problems => exact List.prefix_rfl
    | ok options => exact ⟨_, rfl⟩
  have valid {options : Options} (valid : r.options = .ok options) : r.agenda = Stage.all := by
    rw [agenda, valid]
  cases reached with
  | ready => exact List.nil_prefix
  | validating => exact opening
  | rejected => exact opening
  | parsing known => exact valid known ▸ ⟨_, rfl⟩
  | rewriting known => exact valid known ▸ ⟨_, rfl⟩
  | rendering known => exact valid known ▸ ⟨_, rfl⟩
  | complete converts => exact converts.agenda ▸ List.prefix_rfl
  | finished converts => exact converts.agenda ▸ List.prefix_rfl

theorem Reached.files_left (reached : Reached r files stages run) :
    run.files = files ∨ stages = Stage.all ∧ Rewritten r files run.files := by
  have saved {markdown : Text} {stats : Stats} {left : FileTree} {written : Bool} (converts : r.Converts markdown stats)
      (saved : r.save files markdown = .ok (left, written)) : left = files ∨ Rewritten r files left := by
    have effect := (save_cases converts saved).2
    cases written with
    | false => exact Or.inl effect
    | true => exact Or.inr effect
  cases reached with
  | complete converts put => exact (saved converts put).imp_right fun rewritten => ⟨rfl, rewritten⟩
  | finished converts put => exact (saved converts put).imp_right fun rewritten => ⟨rfl, rewritten⟩
  | _ => exact Or.inl rfl

/-- What the summary at the end says, where `files'` are the files that are left. -/
def Summarizes (r : Request) (files files' : FileTree) (s : Summary) : Prop :=
  match r.options with
  | .error problems =>
    s.success = false ∧ files' = files ∧ s.output.errors = problems.map Problem.entry ∧ s.output.markdown = r.text ∧
      s.output.changed = false ∧ s.output.written = false ∧ s.output.stats = .zero
  | .ok options =>
    s.success = true ∧ transformText r.text options.budget = .ok (s.output.markdown, s.output.stats) ∧
      s.output.changed = decide (s.output.markdown ≠ r.text) ∧
      s.output.written = (r.inPlace && r.path.isSome && s.output.changed) ∧
      if s.output.written then Rewritten r files files' else files' = files

theorem Reached.summarizes (reached : Reached r files stages run) {s : Summary} (done : s ∈ run.summary?) :
    r.Summarizes files run.files s := by
  cases reached with
  | rejected invalid =>
    obtain rfl := Option.some.inj done
    rw [Summarizes, invalid]
    exact ⟨rfl, rfl, rfl, rfl, rfl, rfl, rfl⟩
  | finished converts saved =>
    obtain rfl := Option.some.inj done
    obtain ⟨options, valid, transformed⟩ := id converts
    obtain ⟨written, effect⟩ := save_cases converts saved
    rw [Summarizes, valid]
    exact ⟨rfl, transformed, rfl, written, effect⟩
  | _ => exact nomatch done

/-- How the command stands when `n` announcements have been asked for. -/
structure Course (r : Request) (files : FileTree) (n : Nat) (p : Progress) : Prop where
  items : p.stages <+: r.agenda
  supplied : p.failure = none → p.stages = r.agenda.take n
  broken : ∀ failure ∈ p.failure, r.Fails files failure ∧ p.stages ≠ Stage.all
  ended : p.run.summary?.isSome ↔ p.failure = none ∧ r.agenda.length < n
  summary : ∀ s ∈ p.run.summary?, r.Summarizes files p.files s
  files : p.files = files ∨ p.stages = Stage.all ∧ Rewritten r files p.files ∨
    (∃ failure ∈ p.failure, failure.error = .file .unencodable) ∧ Emptied r files p.files

/-- However many announcements are asked for: those that come are the first of the stages, or of the only one if the options
are not accepted; the summary comes at the end and says what has been done; before the last stage no file changes, and then
none but that of the request, which holds the converted text. A command that is broken off has no summary and has not come
to the last stage; it leaves all files alone, unless the converted text cannot be encoded. -/
theorem advance_course (r : Request) (files : FileTree) (n : Nat) :
    Course r files n (r.advance n (start files)) ∧
      r.pull n (start files) = match (r.advance n (start files)).failure with
        | none => .ok ((r.advance n (start files)).stages, (r.advance n (start files)).run)
        | some failure => .error failure := by
  refine ⟨?_, pull_eq_advance r n (start files)⟩
  have opening : Reached r files [] (start files) := .ready
  have stands := opening.advance rfl n
  generalize r.advance n (start files) = p at stands
  have reached : Reached r files p.stages p.run := stands.reached
  have items := reached.items
  refine ⟨items, fun kept => ?_, stands.broken, ⟨fun done => ?_, fun ⟨kept, short⟩ => ?_⟩, fun s done => ?_, ?_⟩
  · cases done : p.run.summary? with
    | none => rw [← stands.asked done kept, ← List.prefix_iff_eq_take.mp items]
    | some s =>
      obtain ⟨-, fewer, whole⟩ := stands.ended (by rw [done]; rfl)
      rw [List.nil_append] at whole
      rw [← whole, List.take_of_length_le fewer.le]
  · obtain ⟨kept, fewer, whole⟩ := stands.ended done
    rw [List.nil_append] at whole
    exact ⟨kept, whole ▸ fewer⟩
  · cases done : p.run.summary? with
    | some s => rfl
    | none =>
      have count := stands.asked done kept
      have most := items.length_le
      omega
  · have kept := (stands.ended (Option.isSome_of_mem done)).1
    rw [Progress.files, kept]
    exact reached.summarizes done
  · rw [Progress.files]
    cases failed : p.failure with
    | none => exact reached.files_left.imp_right Or.inl
    | some failure =>
      refine (stands.broken failure failed).1.files_left.imp_right fun ⟨unencodable, emptied⟩ => Or.inr ⟨?_, emptied⟩
      exact ⟨failure, rfl, unencodable⟩

def singleEntry (name : Text) (entry : Entry) : FileTree := ⟨[(Path.ofText name, entry)]⟩

/-- A link, to be written back under a name. -/
def linkInPlace (name : Text) : Request := ⟨"[a](b)".toList, .null, some name, true, []⟩

/-- The same with half of a surrogate pair behind the link. -/
def halfInPlace (name : Text) : Request :=
  ⟨['[', 'a', ']', '(', 'b', ')', '\uE000'], .null, some name, true, [⟨'\uE000', rfl⟩]⟩

/-- Neither comes to the last stage or to a summary, though the options are accepted: where the first is to be written
stands a directory, and the second cannot be encoded, which empties the file. -/
theorem inPlace_broken_off :
    let files := singleEntry ['d'] .directory
    let broken := (linkInPlace ['d']).advance allStages (start files)
    let files' := singleEntry ['f'] (.file (Utf8.encode "[a](b)".toList))
    let broken' := (halfInPlace ['f']).advance allStages (start files')
    ((linkInPlace ['d']).options = .ok .none ∧ broken.stages = [.validating, .parsing, .rewriting, .rendering] ∧
      broken.run.summary? = none ∧ broken.failure = some ⟨.file .isDirectory, files⟩) ∧
    (halfInPlace ['f']).options = .ok .none ∧ broken'.stages = [.validating, .parsing, .rewriting, .rendering] ∧
      broken'.run.summary? = none ∧ broken'.failure = some ⟨.file .unencodable, singleEntry ['f'] (.file [])⟩ := by
  intro files broken files' broken'
  refine ⟨⟨by rw [options_eq]; rfl, ?_⟩, by rw [options_eq]; rfl, ?_⟩
  · decide +kernel
  · decide +kernel

/-- A request whose text is converted and whose file can be written runs to its end. -/
theorem run_converted {markdown : Text} {stats : Stats} {written : Bool} (converts : r.Converts markdown stats)
    (saved : r.save files markdown = .ok (files', written)) :
    r.run files = .ok (Stage.all, ⟨.finished (r.done (r.outputOf markdown written stats)), files'⟩) := by
  have opening : Reached r files [] (start files) := .ready
  have stands := opening.advance rfl allStages
  have pulled := pull_eq_advance r allStages (start files)
  generalize r.advance allStages (start files) = p at stands pulled
  have reached : Reached r files p.stages p.run := stands.reached
  have whole := converts.agenda
  have same {markdown' : Text} {stats' : Stats} (converts' : r.Converts markdown' stats') :
      markdown' = markdown ∧ stats' = stats := by
    obtain ⟨options, valid, transformed⟩ := converts
    obtain ⟨options', valid', transformed'⟩ := converts'
    obtain rfl := Except.ok.inj (valid.symm.trans valid')
    exact Prod.mk.inj (Except.ok.inj (transformed'.symm.trans transformed))
  have kept : p.failure = none := by
    cases failed : p.failure with
    | none => rfl
    | some failure =>
      exfalso
      cases (stands.broken failure failed).1 with
      | convert valid stuck =>
        obtain ⟨options, valid', transformed⟩ := converts
        obtain rfl := Except.ok.inj (valid.symm.trans valid')
        exact nomatch stuck.symm.trans transformed
      | save converts' stuck =>
        obtain ⟨rfl, rfl⟩ := same converts'
        exact nomatch stuck.symm.trans saved
  rw [run, pulled, kept]
  obtain ⟨stages, ⟨phase, left⟩, failure⟩ := p
  cases reached with
  | finished converts' saved' =>
    obtain ⟨rfl, rfl⟩ := same converts'
    obtain ⟨rfl, rfl⟩ := Prod.mk.inj (Except.ok.inj (saved'.symm.trans saved))
    rfl
  | rejected invalid =>
    obtain ⟨options, valid, -⟩ := converts
    exact nomatch invalid.symm.trans valid
  | _ =>
    -- In all other states fewer announcements have come than were asked for.
    have count := stands.asked rfl kept
    exact absurd count (by simp [allStages])

end Request
end MarkdownLinks
