import Dousi.Common.Logging

/-!
# A logger that cannot be made

`StartDousiLog` sets the threshold before it makes the logger and swallows the exception.
Before any call the threshold is `NOLEVEL`, which lets nothing pass but `NOLEVEL` itself;
after a failed call it can let messages pass that find no logger.
-/
namespace Dousi.Common.LoggerStart

open Dousi.Lib.Transition
open Spdlog Logging

variable {R L E : Type}

/-- The call tries to make the logger, and `rotating_logger_mt` throws. -/
def Fails (sp : Library R L E) (p : Process R L) (call : Start E) : Prop :=
  p.loggingProvider = none ∧ (call.create sp p.registry).2.isOk = false

/-- A failing call leaves the threshold and the logger alone, and an enabled object finds a
logger when it is destroyed. -/
def Unharmed (sp : Library R L E) (p : Process R L) : Action E → Prop
  | .start call => Fails sp p call →
    (startDousiLog sp p call).severityThreshold = p.severityThreshold ∧
      (startDousiLog sp p call).loggingProvider = p.loggingProvider
  | .destroy i => ∀ o, p.objects[i]? = some o → o.isEnabled = true → p.loggingProvider ≠ none
  | _ => True

/-- A failing call is given `NOLEVEL`, and no statement logs at `NOLEVEL` without a logger. -/
def Calm (sp : Library R L E) (p : Process R L) : Action E → Prop
  | .start call => Fails sp p call → call.severity = .nolevel
  | .log _ _ level => level = .nolevel → p.loggingProvider ≠ none
  | _ => True

instance (sp : Library R L E) (p : Process R L) (call : Start E) : Decidable (Fails sp p call) :=
  inferInstanceAs (Decidable (_ ∧ _))

instance (sp : Library R L E) (p : Process R L) : (a : Action E) → Decidable (Calm sp p a)
  | .start _ | .log .. => inferInstanceAs (Decidable (_ → _))
  | .check .. | .stream .. | .destroy _ | .shutDown => isTrue trivial

/-- As long as there is no logger nothing is enabled. -/
structure Quiet (p : Process R L) : Prop where
  alive : p.nullCalled = false
  threshold : p.loggingProvider = none → p.severityThreshold = .nolevel
  objects : p.loggingProvider = none → ∀ o ∈ p.objects, o.isEnabled = false

theorem nolevel_le (level : LogLevel) : .nolevel ≤ level ↔ level = .nolevel := by
  cases level <;> decide

theorem quiet_init (registry : R) : Quiet (init registry : Process R L) :=
  ⟨rfl, fun _ => rfl, fun _ _ ho => (List.not_mem_nil ho).elim⟩

theorem quiet_objects {p : Process R L} (h : Quiet p) {objects : List DousiLog}
    (hobjects : p.loggingProvider = none → ∀ o ∈ objects, o.isEnabled = false) :
    Quiet { p with objects := objects } := ⟨h.alive, h.threshold, hobjects⟩

theorem quiet_snoc {p : Process R L} (h : Quiet p) {o : DousiLog}
    (ho : p.loggingProvider = none → o.isEnabled = false) :
    Quiet { p with objects := p.objects ++ [o] } :=
  quiet_objects h fun hp x hx => (List.mem_append.mp hx).elim (h.objects hp x)
    fun hlast => List.mem_singleton.mp hlast ▸ ho hp

theorem quiet_some {p : Process R L} {l : L} (h : p.nullCalled = false)
    (hp : p.loggingProvider = some l) : Quiet p := by
  refine ⟨h, ?_, ?_⟩ <;>
    · intro hnone
      rw [hp] at hnone
      cases hnone

theorem quiet_start {sp : Library R L E} {p q : Process R L} {call : Start E} (h : Quiet p)
    (hc : Calm sp p (.start call)) (hq : Starts sp p call q) : Quiet q := by
  cases hq with
  | again hp => exact quiet_some h.alive hp
  | created _ _ => exact quiet_some h.alive rfl
  | refused hp hcreate => exact ⟨h.alive, fun _ => hc ⟨hp, by rw [hcreate]; rfl⟩, h.objects⟩

theorem quiet_destroy (sp : Library R L E) {p : Process R L} {o : DousiLog} (h : Quiet p)
    (ho : p.loggingProvider = none → o.isEnabled = false) : Quiet (destroy sp p o) := by
  refine ⟨?_, ?_, ?_⟩
  · refine Bool.eq_false_iff.mpr fun hnull => ?_
    obtain ⟨henabled, hp⟩ := (destroy_nullCalled sp h.alive o).mp hnull
    rw [ho hp] at henabled
    cases henabled
  · rw [destroy_loggingProvider, destroy_severityThreshold]
    exact h.threshold
  · rw [destroy_loggingProvider, destroy_objects]
    exact h.objects

theorem quiet_step {sp : Library R L E} {p q : Process R L} {a : Action E} (h : Quiet p)
    (hc : Calm sp p a) (hs : step sp p a = some q) : Quiet q := by
  cases (step_moves hs).2 with
  | start hq => exact quiet_start h hc hq
  | @log fileName line level hle =>
    refine quiet_snoc h fun hp => ?_
    rw [h.threshold hp, nolevel_le] at hle
    exact absurd hp (hc hle)
  | filtered _ | passed => exact h
  | @failed fileName line condition =>
    -- a check logs at FATAL, below the threshold that is in force without a logger
    refine quiet_snoc h fun hp => ?_
    rw [checkObject, stream_isEnabled, dousiLog, h.threshold hp]
    rfl
  | @stream i o text _ =>
    refine quiet_objects h fun hp x hx => ?_
    obtain ⟨j, hj⟩ := List.mem_iff_getElem?.mp hx
    obtain ⟨o', ho', rfl⟩ := Option.map_eq_some_iff.mp (List.getElem?_modify .. ▸ hj)
    have hold := h.objects hp o' (List.mem_of_getElem? ho')
    split
    · rw [stream_isEnabled, hold]
    · exact hold
  | destroy ho =>
    exact quiet_destroy sp
      (quiet_objects h fun hp x hx => h.objects hp x (List.mem_of_mem_eraseIdx hx))
      fun hp => h.objects hp _ (List.mem_of_getElem? ho)
  | shutDown => exact ⟨h.alive, h.threshold, h.objects⟩

/-- A failing call without effect on the two static members is one that is given the
threshold it finds. -/
theorem start_unharmed_iff {sp : Library R L E} {p : Process R L} (h : Quiet p)
    (call : Start E) : Unharmed sp p (.start call) ↔ Calm sp p (.start call) := by
  refine forall_congr' fun hfails => ?_
  obtain ⟨hnone, herror⟩ := hfails
  have hstarts := startDousiLog_starts sp p call
  generalize startDousiLog sp p call = q at hstarts
  cases hstarts with
  | again hp =>
    rw [hnone] at hp
    cases hp
  | created _ hcreate =>
    rw [hcreate] at herror
    cases herror
  | refused _ _ =>
    rw [h.threshold hnone]
    exact and_iff_left rfl

/-- Without a logger the statement that calls `log` on the null pointer is the one that logs
at `NOLEVEL`. -/
theorem execute_nullCalled_iff {sp : Library R L E} {p : Process R L} (h : Quiet p)
    (st : Statement) : (execute sp p st).nullCalled = false ↔ Calm sp p st.action := by
  have hnull : (execute sp p st).nullCalled = true ↔
      p.severityThreshold ≤ st.level ∧ p.loggingProvider = none := by
    rw [execute_eq, destroy_nullCalled sp h.alive, foldl_isEnabled, made_isEnabled,
      decide_eq_true_iff]
  rw [← Bool.not_eq_true, hnull]
  obtain ⟨fileName, line, head, operands⟩ := st
  cases head with
  | log level =>
    constructor
    · intro hsafe hlevel hp
      exact hsafe ⟨by rw [h.threshold hp]; exact (nolevel_le level).mpr hlevel, hp⟩
    · rintro hcalm ⟨hle, hp⟩
      rw [h.threshold hp] at hle
      exact hcalm ((nolevel_le level).mp hle) hp
  | check condition =>
    refine iff_of_true ?_ trivial
    rintro ⟨hle, hp⟩
    rw [h.threshold hp] at hle
    cases (nolevel_le .fatal).mp hle

/-- In a run whose steps are all calm, no destructor calls `log` on a null pointer, every
object can be destroyed, and a call of `StartDousiLog` or a statement that comes next does
no harm exactly when it is calm. -/
theorem failed_start_harmless {sp : Library R L E} {registry : R} {p : Process R L}
    (h : Reach (step sp) (Calm sp) (init registry) p) :
    p.nullCalled = false ∧
      (∀ i, Unharmed sp p (.destroy i)) ∧
      (∀ call, Unharmed sp p (.start call) ↔ Calm sp p (.start call)) ∧
      ∀ st : Statement, (execute sp p st).nullCalled = false ↔ Calm sp p st.action := by
  have hquiet : Quiet p := h.invariant (quiet_init registry) fun _ _ _ => quiet_step
  refine ⟨hquiet.alive, fun i o ho henabled hp => ?_, start_unharmed_iff hquiet,
    execute_nullCalled_iff hquiet⟩
  rw [hquiet.objects hp o (List.mem_of_getElem? ho)] at henabled
  cases henabled

/-- Before the logger is made at the second attempt, a check fails. -/
def secondAttempt : List (Action Bool) :=
  [.start ⟨false, ascii "/tmp/dousi/rpcserver.log", .nolevel, 10, 3⟩,
    .check (ascii "submitter.h") 116 (ascii "on_rpc_returned_callback_ != nullptr") false,
    .destroy 0,
    .start ⟨true, ascii "log/test.log", .info, 10, 3⟩,
    .log (ascii "logging_test.cc") 9 .warning, .stream 0 (ascii "Hello "), .destroy 0]

theorem failed_start_harmless_secondAttempt :
    ∃ p, run (step memory) (init empty) secondAttempt = some p ∧ p.nullCalled = false ∧
      ∀ call, Unharmed memory p (.start call) ↔ Calm memory p (.start call) := by
  obtain ⟨halive, -, hstart, -⟩ := failed_start_harmless
    (Reach.of_guarded (by rfl : run (guarded (step memory) (Calm memory)) (init empty)
      secondAttempt = some _))
  exact ⟨_, rfl, halive, hstart⟩

/-- The call of the logging test when the file cannot be opened. -/
def loggingTest : Start Bool := ⟨false, ascii "log/test.log", .info, 10, 3⟩

/-- The threshold is `INFO` from then on, and the next warning calls `log` on the null
pointer. -/
theorem loggingTest_harms :
    ¬ Unharmed memory (init empty) (.start loggingTest) ∧
      ∃ p q, run (step memory) (init empty)
          [.start loggingTest, .log (ascii "logging_test.cc") 9 .warning] = some p ∧
        ¬ Unharmed memory p (.destroy 0) ∧
        step memory p (.destroy 0) = some q ∧ q.nullCalled = true := by
  refine ⟨fun h => ?_, _, _, rfl, fun h => ?_, rfl, rfl⟩
  · exact absurd (h ⟨rfl, rfl⟩).1 (by decide)
  · exact h _ rfl rfl rfl

end Dousi.Common.LoggerStart
