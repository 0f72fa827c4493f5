import MarkdownLinks.Logging

/-!
Logging over whole runs of changes to the environment, configurations and messages. The first configuration that names a
level settles the level and the one handler for good; those before it fail and leave no trace. Until then warnings are
written by the last resort.
-/

namespace MarkdownLinks

/-! ### Levels -/

/-- The levels there are and the number of each: numbers mean themselves, and some names mean one. -/
inductive LevelSpec.Means : LevelSpec → Int → Prop
  | number (n : Int) : Means (.number n) n
  | name {word : String} {n : Int} (known : (word, n) ∈ Level.names) : Means (.name word.toList) n

namespace Level

variable {spec : LevelSpec} {n : Int} {e : LevelError}

/-- No name has two numbers. -/
theorem ofName?_of_mem : ∀ known ∈ names, ofName? known.1.toList = some known.2 := by
  decide

theorem mem_of_ofName? {t : Text} (named : ofName? t = some n) : ∃ word, (word, n) ∈ names ∧ word.toList = t := by
  obtain ⟨⟨word, m⟩, found, rfl⟩ := Option.map_eq_some_iff.mp named
  exact ⟨word, List.mem_of_find?_eq_some found, by simpa using List.find?_some found⟩

theorem ofSpec_eq_ok : ofSpec spec = .ok n ↔ spec.Means n := by
  constructor
  · intro read
    cases spec with
    | number m => exact Except.ok.inj read ▸ .number m
    | other => exact nomatch read
    | name t =>
      rw [ofSpec] at read
      cases named : ofName? t with
      | none =>
        rw [named] at read
        exact nomatch read
      | some m =>
        rw [named] at read
        obtain rfl := Except.ok.inj read
        obtain ⟨word, known, rfl⟩ := mem_of_ofName? named
        exact .name known
  · intro means
    cases means with
    | number => rfl
    | name known => rw [ofSpec, ofName?_of_mem _ known]

/-- What is no level at all, and which names are none. -/
theorem ofSpec_eq_error : ofSpec spec = .error e ↔
    e = .notALevel ∧ spec = .other ∨ e = .unknownName ∧ ∃ t, spec = .name t ∧ ∀ known ∈ names, known.1.toList ≠ t := by
  cases spec with
  | number m => simp [ofSpec]
  | other => simp [ofSpec, eq_comm]
  | name t =>
    rw [ofSpec]
    cases named : ofName? t with
    | some m =>
      obtain ⟨word, known, rfl⟩ := mem_of_ofName? named
      simpa using fun _ => ⟨word, ⟨m, known⟩, rfl⟩
    | none =>
      have unknown : ∀ known ∈ names, known.1.toList ≠ t := by
        rintro known inside rfl
        exact nomatch (ofName?_of_mem known inside).symm.trans named
      simpa [eq_comm] using fun _ => unknown

end Level

/-! ### Calls -/

/-- What can be asked of logging. -/
inductive Logging.Call
  | environment (level : Option Text)
  | configure (level : Option LevelSpec)
  | log (time name : Text) (level : Int) (message : Text)

/-- What comes of a call: nothing to tell, an error, or what is written for a message. -/
inductive Logging.Answer
  | done
  | failed (e : LevelError)
  | written (text : Text)

namespace Logging

/-- Configures in steps: looks whether that has been done, finds the level, sets it, adds a handler, and takes note. An error
leaves behind what the steps before it have done. -/
def setUp (spec : Option LevelSpec) : ExceptT LevelError (StateM Logging) Unit := do
  let s ← get
  unless s.configured do
    let level ← ExceptT.mk (pure (Level.ofSpec (Level.asked s.environment spec)))
    modify fun s => { s with level }
    modify fun s => { s with handlers := s.handlers + 1 }
    modify fun s => { s with configured := true }

def perform (s : Logging) : Call → Answer × Logging
  | .environment level => (.done, s.setEnvironment level)
  | .configure spec => match (setUp spec).run.run s with
    | (.ok (), next) => (.done, next)
    | (.error e, next) => (.failed e, next)
  | .log time name level message => (.written (s.written time name level message), s)

def run (s : Logging) : List Call → Logging
  | [] => s
  | call :: calls => run (s.perform call).2 calls

/-- The level that the first valid configuration among some calls asks for. -/
def settledLevel? : Option Text → List Call → Option Int
  | _, [] => none
  | _, .environment level :: calls => settledLevel? level calls
  | environment, .configure spec :: calls =>
    match Level.ofSpec (Level.asked environment spec) with
    | .ok n => some n
    | .error _ => settledLevel? environment calls
  | environment, .log _ _ _ _ :: calls => settledLevel? environment calls

/-- What is written for a message when a level has been settled, or none yet. -/
def settledWritten (settled : Option Int) (time name : Text) (level : Int) (message : Text) : Text :=
  match settled with
  | some n => if 0 < level ∧ (if n = 0 then warningLevel else n) ≤ level then line time name level message else []
  | none => if warningLevel ≤ level then message ++ ['\n'] else []

variable {s next : Logging} {spec : Option LevelSpec} {level : Int} {e : LevelError}

/-! ### One configuration -/

/-- What setting up does in steps, configuring does at once: if it fails, nothing has been done. -/
theorem setUp_run (spec : Option LevelSpec) (s : Logging) : (setUp spec).run.run s =
    match s.configure spec with
    | .ok next => (.ok (), next)
    | .error e => (.error e, s) := by
  obtain ⟨environment, configured, level, handlers⟩ := s
  cases configured with
  | true => rfl
  | false =>
    -- With logging not configured all depends on whether there is a level, which is looked for before anything is set.
    let s : Logging := ⟨environment, false, level, handlers⟩
    have unset : (setUp spec).run.run s = match Level.ofSpec (Level.asked environment spec) with
        | .ok level => (.ok (), { s with configured := true, level, handlers := handlers + 1 })
        | .error e => (.error e, s) := by
      change ((do
        let level ← ExceptT.mk (pure (Level.ofSpec (Level.asked environment spec)))
        modify fun s => { s with level }
        modify fun s => { s with handlers := s.handlers + 1 }
        modify fun s => { s with configured := true } : ExceptT LevelError (StateM Logging) Unit)).run.run s = _
      cases Level.ofSpec (Level.asked environment spec) <;> rfl
    rw [unset, configure, if_neg Bool.false_ne_true]
    cases Level.ofSpec (Level.asked environment spec) <;> rfl

theorem perform_configured (configured : s.configured) (spec : Option LevelSpec) :
    s.perform (.configure spec) = (.done, s) := by
  rw [perform, setUp_run, configure, if_pos configured]

theorem perform_valid (fresh : s.configured = false) (valid : Level.ofSpec (Level.asked s.environment spec) = .ok level) :
    s.perform (.configure spec) = (.done, { s with configured := true, level, handlers := s.handlers + 1 }) := by
  simp only [perform, setUp_run, configure, fresh, Bool.false_eq_true, if_false, valid, bind, Except.bind]

theorem perform_invalid (fresh : s.configured = false) (invalid : Level.ofSpec (Level.asked s.environment spec) = .error e) :
    s.perform (.configure spec) = (.failed e, s) := by
  simp only [perform, setUp_run, configure, fresh, Bool.false_eq_true, if_false, invalid, bind, Except.bind]

theorem eq_of_failed (failed : s.perform (.configure spec) = (.failed e, next)) :
    next = s ∧ s.configured = false ∧ ∀ n, ¬(Level.asked s.environment spec).Means n := by
  cases configured : s.configured with
  | true =>
    rw [perform_configured configured] at failed
    exact nomatch (Prod.mk.inj failed).1
  | false =>
    cases read : Level.ofSpec (Level.asked s.environment spec) with
    | ok level =>
      rw [perform_valid configured read] at failed
      exact nomatch (Prod.mk.inj failed).1
    | error e =>
      rw [perform_invalid configured read] at failed
      exact ⟨(Prod.mk.inj failed).2.symm, rfl, fun n means => nomatch read.symm.trans (Level.ofSpec_eq_ok.mpr means)⟩

/-! ### Runs -/

/-- Logging once it has been configured: nothing changes any more but the environment. -/
theorem run_configured (configured : s.configured) (calls : List Call) :
    s.run calls = { s with environment := (s.run calls).environment } := by
  induction calls generalizing s with
  | nil => rfl
  | cons call calls ih =>
    rw [run]
    cases call with
    | environment level => exact ih (s := s.setEnvironment level) configured
    | configure spec =>
      rw [perform_configured configured]
      exact ih configured
    | log time name level message => exact ih configured

/-- How logging stands when a level has been settled, or none yet. -/
structure Stands (settled : Option Int) (s : Logging) : Prop where
  configured : s.configured = settled.isSome
  level : s.level = settled.getD 0
  handlers : s.handlers = if s.configured then 1 else 0

theorem Stands.run (stands : Stands none s) (calls : List Call) :
    Stands (settledLevel? s.environment calls) (s.run calls) := by
  induction calls generalizing s with
  | nil => exact stands
  | cons call calls ih =>
    rw [Logging.run]
    cases call with
    | environment level =>
      have same : Stands none (s.setEnvironment level) := ⟨stands.configured, stands.level, stands.handlers⟩
      exact ih same
    | log time name level message => exact ih stands
    | configure spec =>
      have fresh : s.configured = false := stands.configured
      rw [settledLevel?]
      cases read : Level.ofSpec (Level.asked s.environment spec) with
      | ok level =>
        -- This is the first valid one: whatever follows leaves level and handler alone.
        rw [perform_valid fresh read, run_configured rfl]
        have unhandled : s.handlers = 0 := by rw [stands.handlers, fresh, if_neg Bool.false_ne_true]
        exact ⟨rfl, rfl, by simp [unhandled]⟩
      | error e =>
        rw [perform_invalid fresh read]
        exact ih stands

theorem Stands.written {settled : Option Int} (stands : Stands settled s) (time name : Text) (level : Int)
    (message : Text) : s.written time name level message = settledWritten settled time name level message := by
  rw [Logging.written, effectiveLevel, stands.handlers, stands.level, stands.configured]
  cases settled with
  | none =>
    rw [settledWritten]
    by_cases warns : warningLevel ≤ level
    · have positive : 0 < level := Int.lt_of_lt_of_le (by decide) warns
      simp [warns, positive]
    · simp [warns]
  | some n => simp [settledWritten]

/-- What has come of a run of calls that began with logging not configured. -/
structure Course (calls : List Call) (s : Logging) : Prop where
  handlers : s.handlers = if s.configured then 1 else 0
  configured : s.configured ↔ (settledLevel? none calls).isSome
  level : s.level = (settledLevel? none calls).getD 0
  failing : ∀ spec e next, s.perform (.configure spec) = (.failed e, next) →
    next = s ∧ ¬s.configured ∧ ∀ n, ¬(Level.asked s.environment spec).Means n
  valid : ∀ spec n, (Level.asked s.environment spec).Means n →
    ∃ next, s.perform (.configure spec) = (.done, next) ∧ next.configured ∧ (¬s.configured → next.level = n)
  settled : s.configured → ∀ later, s.run later = { s with environment := (s.run later).environment } ∧
    ∀ spec, (s.run later).perform (.configure spec) = (.done, s.run later)
  writes : ∀ time name level message, s.perform (.log time name level message) =
    (.written (settledWritten (settledLevel? none calls) time name level message), s)

/-- Whatever is called, and in whatever order: there is one handler if logging has been configured and none otherwise; a
configuration that fails changes nothing, and one that asks for a level does not fail; after the first that does none fails
or changes anything. From then on a message is written by the handler exactly if its level is positive and not below the one
settled, which means warnings if it is zero. Before that the last resort writes exactly the messages from warnings on. -/
theorem run_course (calls : List Call) : Course calls (initial.run calls) := by
  have fresh : Stands none initial := ⟨rfl, rfl, rfl⟩
  have stands : Stands (settledLevel? none calls) (initial.run calls) := fresh.run calls
  generalize initial.run calls = s at stands
  refine ⟨stands.handlers, by rw [stands.configured], stands.level, fun spec e next failed => ?_,
    fun spec n means => ?_, fun configured later => ?_, fun time name level message => ?_⟩
  · obtain ⟨same, unset, meaningless⟩ := eq_of_failed failed
    exact ⟨same, by simp [unset], meaningless⟩
  · cases configured : s.configured with
    | true => exact ⟨s, perform_configured configured spec, configured, fun unset => absurd rfl unset⟩
    | false => exact ⟨_, perform_valid configured (Level.ofSpec_eq_ok.mpr means), rfl, fun _ => rfl⟩
  · have kept := run_configured configured later
    refine ⟨kept, perform_configured ?_⟩
    rw [kept]
    exact configured
  · rw [perform, stands.written]

/-- A warning is written although nothing has been configured, and after a configuration that has failed. -/
theorem unconfigured_warning_written :
    let time := "2024-01-01 00:00:00,000".toList
    let message := "written before logging has been configured".toList
    (initial.perform (.log time "cli".toList 30 message)).1 = .written (message ++ ['\n']) ∧
      initial.configured = false ∧ settledLevel? none [.log time "cli".toList 30 message] = none ∧
      (initial.run [.configure (some (.name "LOUD".toList))]).written time "cli".toList 30 message = message ++ ['\n'] := by
  refine ⟨rfl, rfl, rfl, ?_⟩
  decide +kernel

/-- A name that is no level fails, the first level stays. -/
example : initial.run [.configure (some (.name "LOUD".toList)), .configure (some (.name "INFO".toList)),
    .configure (some (.name "DEBUG".toList)), .configure (some .other)] = ⟨none, true, 20, 1⟩ := by decide

end Logging
end MarkdownLinks
