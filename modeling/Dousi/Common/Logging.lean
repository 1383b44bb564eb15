import Dousi.Common.Spdlog
import Dousi.Lib.Decimal
import Dousi.Lib.Transition
import Mathlib.Order.Lattice

/-!
# DousiLog

`StartDousiLog` sets a threshold and makes the one spdlog logger of the process. A log
statement makes a `DousiLog` object, streams its operands into it and destroys it; the
destructor hands the text to the logger. The objects that live, the two static members
and what the process prints are the state.
-/
namespace Dousi.Common.Logging

open Dousi.Lib.Word (Bytes)
open Dousi.Lib.Decimal (numeral)
open Dousi.Lib.Transition
open Spdlog

/-- `LOG_LEVEL`. -/
inductive LogLevel where
  | debug
  | info
  | warning
  | fatal
  | nolevel

/-- The value of the enumerator. -/
def LogLevel.value : LogLevel → Nat
  | .debug => 0
  | .info => 1
  | .warning => 2
  | .fatal => 3
  | .nolevel => 4

theorem LogLevel.value_injective : Function.Injective LogLevel.value := by
  intro a b h
  cases a <;> cases b <;> first | rfl | cases h

instance : LinearOrder LogLevel := LinearOrder.lift' LogLevel.value LogLevel.value_injective

/-- `GetMappedSeverity`. -/
def getMappedSeverity : LogLevel → LevelEnum
  | .debug => .debug
  | .info => .info
  | .warning => .warn
  | .fatal => .critical
  | .nolevel => .critical

/-- To spdlog `NOLEVEL` is what `FATAL` is, and the other levels keep their order. -/
theorem getMappedSeverity_le (a b : LogLevel) :
    getMappedSeverity a ≤ getMappedSeverity b ↔ min a .fatal ≤ b := by
  cases a <;> cases b <;> decide

/-- The characters of a string literal. -/
def ascii (s : String) : Bytes := s.toList.map fun c => UInt8.ofNat c.toNat

structure DousiLog where
  isEnabled : Bool
  logLevel : LogLevel
  fileName : Bytes
  lineNumber : Nat
  ss : Bytes

/-- `operator<<`, given what the stream makes of its operand. -/
def DousiLog.stream (o : DousiLog) (text : Bytes) : DousiLog :=
  if o.isEnabled then { o with ss := o.ss ++ text } else o

/-- `"in {} line:{} {}"`, formatted. -/
def DousiLog.message (o : DousiLog) : Bytes :=
  ascii "in " ++ o.fileName ++ ascii " line:" ++ numeral o.lineNumber ++ ascii " " ++ o.ss

/-- The arguments of a call of `StartDousiLog`, and the answer of the file system. -/
structure Start (E : Type) where
  answer : E
  logFileName : Bytes
  severity : LogLevel
  logFileRollSizeMb : UInt32
  logFileRollCout : UInt32

structure Process (R L : Type) where
  severityThreshold : LogLevel
  loggingProvider : Option L
  registry : R
  /-- the `DousiLog` objects that live, the oldest first -/
  objects : List DousiLog
  /-- the lines printed to `std::cout` -/
  printed : List Bytes
  /-- a destructor has called `log` on a null `logging_provider` -/
  nullCalled : Bool

/-- The static members before any call. -/
def init {R L : Type} (registry : R) : Process R L := ⟨.nolevel, none, registry, [], [], false⟩

variable {R L E : Type}

/-- `IsLevelEnabled`. -/
def isLevelEnabled (p : Process R L) (logLevel : LogLevel) : Bool :=
  decide (p.severityThreshold ≤ logLevel)

/-- The constructor of `DousiLog`. -/
def dousiLog (p : Process R L) (fileName : Bytes) (lineNumber : Nat) (severity : LogLevel) :
    DousiLog :=
  ⟨decide (p.severityThreshold ≤ severity), severity, fileName, lineNumber, []⟩

/-- `~DousiLog`. -/
def destroy (sp : Library R L E) (p : Process R L) (o : DousiLog) : Process R L :=
  if o.isEnabled then
    match p.loggingProvider with
    | none => { p with nullCalled := true }
    | some l =>
      let result := sp.log p.registry l (getMappedSeverity o.logLevel) o.message
      { p with
        registry := result.1
        printed := p.printed ++
          result.2.toList.map fun what => ascii "logging_provider->log failed: " ++ what }
  else p

/-- The call that makes the logger. The size is computed in 32 bits. -/
def Start.create (sp : Library R L E) (registry : R) (call : Start E) : R × Except Bytes L :=
  sp.rotatingLoggerMt registry call.answer (ascii "dousi_log") call.logFileName
    (1024 * 1024 * 1024 * call.logFileRollSizeMb).toNat call.logFileRollCout.toNat

def startDousiLog (sp : Library R L E) (p : Process R L) (call : Start E) : Process R L :=
  let p := { p with severityThreshold := call.severity }
  match p.loggingProvider with
  | some _ => p
  | none =>
    match call.create sp p.registry with
    | (registry, .ok l) =>
      { p with
        loggingProvider := some l
        registry := sp.flushOn (sp.setLevel registry (getMappedSeverity call.severity)) l .debug }
    | (registry, .error what) =>
      { p with registry := registry, printed := p.printed ++ [ascii "DousiLog failed: " ++ what] }

inductive Action (E : Type) where
  | start (call : Start E)
  /-- `DOUSI_LOG(level)` -/
  | log (fileName : Bytes) (line : Nat) (level : LogLevel)
  /-- `DOUSI_CHECK(condition)` -/
  | check (fileName : Bytes) (line : Nat) (condition : Bytes) (holds : Bool)
  | stream (object : Nat) (text : Bytes)
  | destroy (object : Nat)
  | shutDown

/-- What `DOUSI_CHECK` streams into its object. -/
def checkFailed (condition : Bytes) : Bytes := ascii " Check failed: " ++ condition ++ ascii " "

/-- The object a `DOUSI_CHECK` makes when its condition fails. -/
def checkObject (p : Process R L) (fileName : Bytes) (line : Nat) (condition : Bytes) : DousiLog :=
  (dousiLog p fileName line .fatal).stream (checkFailed condition)

def perform (sp : Library R L E) (p : Process R L) : Action E → Option (Process R L)
  | .start call => some (startDousiLog sp p call)
  | .log fileName line level =>
    if isLevelEnabled p level then
      some { p with objects := p.objects ++ [dousiLog p fileName line level] }
    else some p
  | .check fileName line condition holds =>
    if holds then some p
    else some { p with objects := p.objects ++ [checkObject p fileName line condition] }
  | .stream i text => p.objects[i]?.map fun _ =>
      { p with objects := p.objects.modify i fun o => o.stream text }
  | .destroy i => p.objects[i]?.map fun o =>
      destroy sp { p with objects := p.objects.eraseIdx i } o
  | .shutDown => some { p with registry := sp.shutdown p.registry }

/-- Nothing is said of what comes after a call on a null pointer. -/
def step (sp : Library R L E) (p : Process R L) (a : Action E) : Option (Process R L) :=
  if p.nullCalled then none else perform sp p a

theorem step_alive (sp : Library R L E) {p : Process R L} (h : p.nullCalled = false)
    (a : Action E) : step sp p a = perform sp p a := if_neg (by simp [h])

/-- What a call of `StartDousiLog` can do: the logger is there, is made, or cannot be made. -/
inductive Starts (sp : Library R L E) (p : Process R L) (call : Start E) : Process R L → Prop
  | again {l : L} : p.loggingProvider = some l →
      Starts sp p call { p with severityThreshold := call.severity }
  | created {registry : R} {l : L} : p.loggingProvider = none →
      call.create sp p.registry = (registry, .ok l) → Starts sp p call { p with
        severityThreshold := call.severity
        loggingProvider := some l
        registry := sp.flushOn (sp.setLevel registry (getMappedSeverity call.severity)) l .debug }
  | refused {registry : R} {what : Bytes} : p.loggingProvider = none →
      call.create sp p.registry = (registry, .error what) → Starts sp p call { p with
        severityThreshold := call.severity
        registry := registry
        printed := p.printed ++ [ascii "DousiLog failed: " ++ what] }

theorem startDousiLog_starts (sp : Library R L E) (p : Process R L) (call : Start E) :
    Starts sp p call (startDousiLog sp p call) := by
  cases hp : p.loggingProvider with
  | some l =>
    simp only [startDousiLog, hp]
    exact hp ▸ .again hp
  | none =>
    obtain ⟨registry, result, hcreate⟩ : ∃ registry result,
        call.create sp p.registry = (registry, result) := ⟨_, _, rfl⟩
    cases result with
    | ok l =>
      simp only [startDousiLog, hp, hcreate]
      exact .created hp hcreate
    | error what =>
      simp only [startDousiLog, hp, hcreate]
      exact hp ▸ .refused hp hcreate

/-- What a step can do. -/
inductive Moves (sp : Library R L E) (p : Process R L) : Action E → Process R L → Prop
  | start {call : Start E} {q : Process R L} : Starts sp p call q → Moves sp p (.start call) q
  | log {fileName : Bytes} {line : Nat} {level : LogLevel} : p.severityThreshold ≤ level →
      Moves sp p (.log fileName line level)
        { p with objects := p.objects ++ [dousiLog p fileName line level] }
  | filtered {fileName : Bytes} {line : Nat} {level : LogLevel} : level < p.severityThreshold →
      Moves sp p (.log fileName line level) p
  | passed {fileName : Bytes} {line : Nat} {condition : Bytes} :
      Moves sp p (.check fileName line condition true) p
  | failed {fileName : Bytes} {line : Nat} {condition : Bytes} :
      Moves sp p (.check fileName line condition false)
        { p with objects := p.objects ++ [checkObject p fileName line condition] }
  | stream {i : Nat} {o : DousiLog} {text : Bytes} : p.objects[i]? = some o →
      Moves sp p (.stream i text) { p with objects := p.objects.modify i fun o => o.stream text }
  | destroy {i : Nat} {o : DousiLog} : p.objects[i]? = some o →
      Moves sp p (.destroy i) (destroy sp { p with objects := p.objects.eraseIdx i } o)
  | shutDown : Moves sp p .shutDown { p with registry := sp.shutdown p.registry }

theorem step_moves {sp : Library R L E} {p q : Process R L} {a : Action E}
    (hs : step sp p a = some q) : p.nullCalled = false ∧ Moves sp p a q := by
  cases halive : p.nullCalled with
  | true => simp [step, halive] at hs
  | false =>
    rw [step_alive sp halive] at hs
    refine ⟨rfl, ?_⟩
    cases a with
    | start call =>
      cases hs
      exact .start (startDousiLog_starts sp p call)
    | log fileName line level =>
      simp only [perform, isLevelEnabled, decide_eq_true_eq] at hs
      split at hs
      · next hle =>
        cases hs
        exact .log hle
      · next hle =>
        cases hs
        exact .filtered (not_le.mp hle)
    | check fileName line condition holds =>
      cases holds with
      | true =>
        cases hs
        exact .passed
      | false =>
        cases hs
        exact .failed
    | stream i text =>
      obtain ⟨o, ho, rfl⟩ := Option.map_eq_some_iff.mp hs
      exact .stream ho
    | destroy i =>
      obtain ⟨o, ho, rfl⟩ := Option.map_eq_some_iff.mp hs
      exact .destroy ho
    | shutDown =>
      cases hs
      exact .shutDown

/-! What the functions leave alone -/

@[simp] theorem stream_isEnabled (o : DousiLog) (text : Bytes) :
    (o.stream text).isEnabled = o.isEnabled := by
  unfold DousiLog.stream
  split <;> rfl

@[simp] theorem destroy_severityThreshold (sp : Library R L E) (p : Process R L) (o : DousiLog) :
    (destroy sp p o).severityThreshold = p.severityThreshold := by
  unfold destroy
  split
  · split <;> rfl
  · rfl

@[simp] theorem destroy_loggingProvider (sp : Library R L E) (p : Process R L) (o : DousiLog) :
    (destroy sp p o).loggingProvider = p.loggingProvider := by
  unfold destroy
  split
  · split <;> rfl
  · rfl

@[simp] theorem destroy_objects (sp : Library R L E) (p : Process R L) (o : DousiLog) :
    (destroy sp p o).objects = p.objects := by
  unfold destroy
  split
  · split <;> rfl
  · rfl

theorem destroy_disabled (sp : Library R L E) (p : Process R L) {o : DousiLog}
    (h : o.isEnabled = false) : destroy sp p o = p := by
  rw [destroy, h, if_neg Bool.false_ne_true]

/-- A destructor calls `log` on a null pointer when the object is enabled and there is no
logger, and only then. -/
theorem destroy_nullCalled (sp : Library R L E) {p : Process R L} (h : p.nullCalled = false)
    (o : DousiLog) : (destroy sp p o).nullCalled = true ↔
      o.isEnabled = true ∧ p.loggingProvider = none := by
  unfold destroy
  split
  · next ho =>
    cases hp : p.loggingProvider with
    | none => exact ⟨fun _ => ⟨ho, rfl⟩, fun _ => rfl⟩
    | some l => simp [h]
  · next ho => simp [h, ho]

/-! A statement as a whole -/

/-- What a statement begins with. -/
inductive Head where
  | log (level : LogLevel)
  /-- the condition of the check is false -/
  | check (condition : Bytes)

/-- A statement whose operands start no logger and log nothing themselves. -/
structure Statement where
  fileName : Bytes
  line : Nat
  head : Head
  operands : List Bytes

namespace Statement

def level (st : Statement) : LogLevel :=
  match st.head with
  | .log level => level
  | .check _ => .fatal

/-- The first text streamed. -/
def opening (st : Statement) : Bytes :=
  match st.head with
  | .log _ => []
  | .check condition => checkFailed condition

/-- The step that makes the object. -/
def action (st : Statement) : Action E :=
  match st.head with
  | .log level => .log st.fileName st.line level
  | .check condition => .check st.fileName st.line condition false

/-- What the logger is given to write. -/
def message (st : Statement) : Bytes :=
  ascii "in " ++ st.fileName ++ ascii " line:" ++ numeral st.line ++ ascii " " ++
    (st.opening ++ st.operands.flatten)

/-- The object as the statement has made it. -/
def made (st : Statement) (p : Process R L) : DousiLog :=
  match st.head with
  | .log level => dousiLog p st.fileName st.line level
  | .check condition => checkObject p st.fileName st.line condition

end Statement

/-- The statement from the guard of its macro to the end of the object. -/
def execute (sp : Library R L E) (p : Process R L) (st : Statement) : Process R L :=
  match st.head with
  | .log level =>
    if isLevelEnabled p level then destroy sp p (st.operands.foldl DousiLog.stream (st.made p))
    else p
  | .check _ => destroy sp p (st.operands.foldl DousiLog.stream (st.made p))

theorem stream_foldl (o : DousiLog) (texts : List Bytes) :
    texts.foldl DousiLog.stream o =
      if o.isEnabled then { o with ss := o.ss ++ texts.flatten } else o := by
  induction texts generalizing o with
  | nil => simp
  | cons text rest ih =>
    rw [List.foldl_cons, ih, stream_isEnabled]
    split
    · next ho => simp [DousiLog.stream, ho]
    · next ho => simp [DousiLog.stream, ho]

theorem made_isEnabled (p : Process R L) (st : Statement) :
    (st.made p).isEnabled = decide (p.severityThreshold ≤ st.level) := by
  cases hst : st.head with
  | log level => simp [Statement.made, Statement.level, hst, dousiLog]
  | check condition => simp [Statement.made, Statement.level, hst, checkObject, dousiLog]

theorem made_enabled {p : Process R L} {st : Statement} (h : p.severityThreshold ≤ st.level) :
    st.made p = ⟨true, st.level, st.fileName, st.line, st.opening⟩ := by
  cases hst : st.head with
  | log level =>
    simp only [Statement.level, hst] at h
    simp [Statement.made, Statement.level, Statement.opening, hst, dousiLog, h]
  | check condition =>
    simp only [Statement.level, hst] at h
    simp [Statement.made, Statement.level, Statement.opening, hst, checkObject, dousiLog, h,
      DousiLog.stream]

theorem foldl_isEnabled (o : DousiLog) (texts : List Bytes) :
    (texts.foldl DousiLog.stream o).isEnabled = o.isEnabled := by
  rw [stream_foldl]
  split <;> rfl

theorem made_disabled {p : Process R L} {st : Statement} (h : st.level < p.severityThreshold) :
    (st.operands.foldl DousiLog.stream (st.made p)).isEnabled = false := by
  rw [foldl_isEnabled, made_isEnabled]
  exact decide_eq_false (not_le.mpr h)

/-- The guard of `DOUSI_LOG` makes no difference: an object that is not enabled does nothing. -/
theorem execute_eq (sp : Library R L E) (p : Process R L) (st : Statement) :
    execute sp p st = destroy sp p (st.operands.foldl DousiLog.stream (st.made p)) := by
  cases hst : st.head with
  | log level =>
    simp only [execute, hst]
    split
    · rfl
    · next hdisabled =>
      have hlt : st.level < p.severityThreshold := by
        simpa [isLevelEnabled, Statement.level, hst] using hdisabled
      rw [destroy_disabled sp p (made_disabled hlt)]
  | check condition => simp only [execute, hst]

theorem execute_disabled (sp : Library R L E) {p : Process R L} {st : Statement}
    (h : st.level < p.severityThreshold) : execute sp p st = p := by
  rw [execute_eq, destroy_disabled sp p (made_disabled h)]

/-- What an enabled statement hands to its destructor. -/
theorem execute_enabled (sp : Library R L E) {p : Process R L} {st : Statement}
    (h : p.severityThreshold ≤ st.level) :
    ∃ o, execute sp p st = destroy sp p o ∧ o.isEnabled = true ∧ o.logLevel = st.level ∧
      o.message = st.message := by
  refine ⟨_, execute_eq sp p st, ?_⟩
  rw [stream_foldl, made_enabled h]
  exact ⟨rfl, rfl, rfl⟩

/-- The operands are streamed into the object made last. -/
theorem run_stream (sp : Library R L E) {p : Process R L} (h : p.nullCalled = false)
    (texts : List Bytes) (o : DousiLog) :
    run (step sp) { p with objects := p.objects ++ [o] }
        (texts.map (Action.stream p.objects.length)) =
      some { p with objects := p.objects ++ [texts.foldl DousiLog.stream o] } := by
  induction texts generalizing o with
  | nil => rfl
  | cons text rest ih =>
    have hstep : step sp { p with objects := p.objects ++ [o] }
        (.stream p.objects.length text) =
          some { p with objects := p.objects ++ [o.stream text] } := by
      rw [step, if_neg (by simp [h])]
      simp [perform, List.modify_eq_take_drop]
    rw [List.map_cons, run, hstep, Option.bind_some, List.foldl_cons]
    exact ih (o.stream text)

/-- The steps of a statement from the making of its object on. -/
theorem run_statement (sp : Library R L E) {p : Process R L} (h : p.nullCalled = false)
    {st : Statement}
    (hmakes : perform sp p st.action = some { p with objects := p.objects ++ [st.made p] }) :
    run (step sp) p (st.action :: (st.operands.map (Action.stream p.objects.length) ++
      [.destroy p.objects.length])) = some (execute sp p st) := by
  have hdestroy : step sp
      { p with objects := p.objects ++ [st.operands.foldl DousiLog.stream (st.made p)] }
      (.destroy p.objects.length) = some (execute sp p st) := by
    rw [step, if_neg (by simp [h])]
    simp [perform, execute_eq, List.eraseIdx_append_of_length_le]
  rw [run, step_alive sp h, hmakes, Option.bind_some, run_append, run_stream sp h,
    Option.bind_some, run, hdestroy]
  rfl

/-- A statement takes the steps of the system: those of its object, or the guard alone. -/
theorem execute_run (sp : Library R L E) {p : Process R L} (h : p.nullCalled = false)
    (st : Statement) :
    run (step sp) p [st.action] = some (execute sp p st) ∨
      run (step sp) p (st.action :: (st.operands.map (Action.stream p.objects.length) ++
        [.destroy p.objects.length])) = some (execute sp p st) := by
  cases hst : st.head with
  | log level =>
    by_cases hlevel : isLevelEnabled p level = true
    · refine .inr (run_statement sp h ?_)
      simp [perform, Statement.action, Statement.made, hst, hlevel]
    · left
      rw [run, step_alive sp h]
      simp [perform, run, execute, Statement.action, hst, hlevel]
  | check condition =>
    refine .inr (run_statement sp h ?_)
    simp [perform, Statement.action, Statement.made, hst]

end Dousi.Common.Logging
