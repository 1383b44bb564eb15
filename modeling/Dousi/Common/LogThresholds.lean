import Dousi.Common.Logging

/-!
# The threshold of the program and the level of the logger

A message passes two filters. Every `StartDousiLog` sets `severity_threshold_`, but only the
one that makes the logger calls `set_level`, so the first severity stays in force beside
the most recent one.
-/
namespace Dousi.Common.LogThresholds

open Dousi.Lib.Word (Bytes)
open Dousi.Lib.Transition
open Spdlog Logging

variable {R L E : Type}

def severity : Action E → Option LogLevel
  | .start call => some call.severity
  | _ => none

/-- The severities given to `StartDousiLog`, the oldest first. -/
def severities (acts : List (Action E)) : List LogLevel := acts.filterMap severity

/-- A `StartDousiLog` that finds no logger makes it. Only the first one does not find it. -/
def Creates (sp : Library R L E) (p : Process R L) : Action E → Prop
  | .start call => p.loggingProvider = none → (call.create sp p.registry).2.isOk = true
  | _ => True

instance (sp : Library R L E) (p : Process R L) : (a : Action E) → Decidable (Creates sp p a)
  | .start _ => inferInstanceAs (Decidable (_ → _))
  | .log .. | .check .. | .stream .. | .destroy _ | .shutDown => isTrue trivial

/-- The two filters after a run: the most recent severity and the first one. -/
structure Filters (level : R → L → LevelEnum) (acts : List (Action E)) (p : Process R L) :
    Prop where
  threshold : p.severityThreshold = (severities acts).getLast?.getD .nolevel
  unstarted : severities acts = [] → p.loggingProvider = none
  logger : ∀ first, (severities acts).head? = some first →
    ∃ l, p.loggingProvider = some l ∧ level p.registry l = getMappedSeverity first

/-- The statement's message is the last one the logger has written to its file. -/
def Reaches (written : R → L → List (LevelEnum × Bytes)) (p q : Process R L) (st : Statement) :
    Prop :=
  ∃ l, p.loggingProvider = some l ∧
    written q.registry l = written p.registry l ++ [(getMappedSeverity st.level, st.message)]

section
variable {sp : Library R L E} {registered : R → L → Prop} {level : R → L → LevelEnum}
  {written : R → L → List (LevelEnum × Bytes)}

theorem destroy_some (sp : Library R L E) {p : Process R L} {l : L} {o : DousiLog}
    (ho : o.isEnabled = true) (hp : p.loggingProvider = some l) :
    (destroy sp p o).registry =
      (sp.log p.registry l (getMappedSeverity o.logLevel) o.message).1 := by
  simp only [destroy, ho, hp, if_true]

theorem destroy_level (hsp : sp.Documented registered level written) (p : Process R L)
    (o : DousiLog) (l : L) : level (destroy sp p o).registry l = level p.registry l := by
  cases ho : o.isEnabled with
  | false => rw [destroy_disabled sp p ho]
  | true =>
    cases hp : p.loggingProvider with
    | none => simp only [destroy, ho, hp, if_true]
    | some l' =>
      rw [destroy_some sp ho hp]
      exact hsp.log ..

theorem severities_append (acts : List (Action E)) (a : Action E) :
    severities (acts ++ [a]) = severities acts ++ (severity a).toList := by
  cases a <;> simp [severities, severity]

/-- A step that is no `StartDousiLog` changes neither filter. -/
theorem filters_keep {acts : List (Action E)} {a : Action E} {p q : Process R L}
    (h : Filters level acts p) (ha : severity a = none)
    (hthreshold : q.severityThreshold = p.severityThreshold)
    (hprovider : q.loggingProvider = p.loggingProvider)
    (hlevel : ∀ l, level q.registry l = level p.registry l) : Filters level (acts ++ [a]) q := by
  have hsame : severities (acts ++ [a]) = severities acts := by
    rw [severities_append, ha, Option.toList_none, List.append_nil]
  refine ⟨?_, ?_, ?_⟩
  · rw [hsame, hthreshold, h.threshold]
  · rw [hsame, hprovider]
    exact h.unstarted
  · intro first hfirst
    rw [hsame] at hfirst
    obtain ⟨l, hl, hk⟩ := h.logger first hfirst
    exact ⟨l, hprovider.trans hl, (hlevel l).trans hk⟩

theorem filters_start (hsp : sp.Documented registered level written) {acts : List (Action E)}
    {call : Start E} {p q : Process R L} (h : Filters level acts p)
    (hc : Creates sp p (.start call)) (hq : Starts sp p call q) :
    Filters level (acts ++ [.start call]) q := by
  have hnext : severities (acts ++ [.start call]) = severities acts ++ [call.severity] :=
    severities_append acts (.start call)
  cases hq with
  | @again l hp =>
    have hstarted : severities acts ≠ [] := fun hnil => by
      rw [h.unstarted hnil] at hp
      cases hp
    refine ⟨by simp [hnext], by simp [hnext], fun first hfirst => h.logger first ?_⟩
    rwa [hnext, List.head?_append, List.head?_eq_some_head hstarted, Option.some_or,
      ← List.head?_eq_some_head hstarted] at hfirst
  | @created registry l hp hcreate =>
    have hnone : severities acts = [] := by
      by_contra hne
      obtain ⟨l', hl, _⟩ := h.logger _ (List.head?_eq_some_head hne)
      rw [hp] at hl
      cases hl
    refine ⟨by simp [hnext], by simp [hnext], fun first hfirst => ⟨l, rfl, ?_⟩⟩
    rw [hnext, hnone] at hfirst
    cases hfirst
    rw [hsp.flushOn, hsp.setLevel _ _ _ (hsp.rotatingLoggerMt _ _ _ _ _ _ _ _ hcreate)]
  | refused hp hcreate =>
    have hok := hc hp
    rw [hcreate] at hok
    cases hok

theorem filters_run (hsp : sp.Documented registered level written) {registry : R}
    {acts : List (Action E)} {p : Process R L}
    (h : Runs (step sp) (Creates sp) (init registry) acts p) : Filters level acts p := by
  refine h.invariant ⟨rfl, fun _ => rfl, fun _ hfirst => by cases hfirst⟩ ?_
  intro done u a v hu hc hs
  cases (step_moves hs).2 with
  | start hq => exact filters_start hsp hu hc hq
  | log _ | filtered _ | passed | failed | stream _ =>
    exact filters_keep hu rfl rfl rfl fun _ => rfl
  | destroy _ =>
    exact filters_keep hu rfl (destroy_severityThreshold ..) (destroy_loggingProvider ..)
      fun l => destroy_level hsp _ _ l
  | shutDown => exact filters_keep hu rfl rfl rfl fun l => hsp.shutdown _ l

/-- The two filters in a row. -/
theorem reaches_iff (hsp : sp.Documented registered level written) {p : Process R L} {l : L}
    (hp : p.loggingProvider = some l) (st : Statement) :
    Reaches written p (execute sp p st) st ↔
      p.severityThreshold ≤ st.level ∧ level p.registry l ≤ getMappedSeverity st.level := by
  have hlogger (q : Process R L) : Reaches written p q st ↔
      written q.registry l =
        written p.registry l ++ [(getMappedSeverity st.level, st.message)] := by
    simp [Reaches, hp]
  rcases le_or_gt p.severityThreshold st.level with hle | hlt
  · obtain ⟨o, hexec, ho, hlevel, hmessage⟩ := execute_enabled sp hle
    rw [hlogger, hexec, destroy_some sp ho hp, hlevel, hmessage]
    rcases le_or_gt (level p.registry l) (getMappedSeverity st.level) with hpass | hdrop
    · rw [hsp.writes _ _ _ _ hpass]
      exact ⟨fun _ => ⟨hle, hpass⟩, fun _ => rfl⟩
    · rw [hsp.drops _ _ _ _ hdrop]
      simp [not_le.mpr hdrop]
  · rw [hlogger, execute_disabled sp hlt]
    simp [not_le.mpr hlt]

/-- After a run whose first `StartDousiLog` makes the logger, a statement is logged as the
most recent severity says unless its level lies below the first severity, `NOLEVEL` counting
as `FATAL`; and all statements are when the most recent severity does not lie below it. -/
theorem last_start_decides_iff (hsp : sp.Documented registered level written) {registry : R}
    {acts : List (Action E)} {p : Process R L}
    (h : Runs (step sp) (Creates sp) (init registry) acts p) {first last : LogLevel}
    (hfirst : (severities acts).head? = some first)
    (hlast : (severities acts).getLast? = some last) :
    (∀ st : Statement, (Reaches written p (execute sp p st) st ↔ last ≤ st.level) ↔
      (last ≤ st.level → min first .fatal ≤ st.level)) ∧
    ((∀ st : Statement, st.level ≤ .fatal →
      (Reaches written p (execute sp p st) st ↔ last ≤ st.level)) ↔ min first .fatal ≤ last) := by
  obtain ⟨hthreshold, -, hlogger⟩ := filters_run hsp h
  obtain ⟨l, hp, hlevel⟩ := hlogger first hfirst
  rw [hlast, Option.getD_some] at hthreshold
  have hone (st : Statement) : (Reaches written p (execute sp p st) st ↔ last ≤ st.level) ↔
      (last ≤ st.level → min first .fatal ≤ st.level) := by
    rw [reaches_iff hsp hp, hthreshold, hlevel, getMappedSeverity_le]
    exact and_iff_left_iff_imp
  refine ⟨hone, fun hall => ?_, fun hle st _ => (hone st).mpr hle.trans⟩
  by_contra hlt
  have hfatal : last ≤ .fatal := (not_le.mp hlt).le.trans (min_le_right ..)
  exact hlt ((hone ⟨[], 0, .log last, []⟩).mp (hall _ hfatal) le_rfl)

end

/-- The server's constructor starts logging, then a client's in the same process. -/
def serverAndClient : List (Action Bool) :=
  [.start ⟨true, ascii "/tmp/dousi/rpcserver.log", .warning, 10, 3⟩,
    .start ⟨true, ascii "/tmp/dousi/rpclient.log", .warning, 10, 3⟩]

theorem last_start_decides_iff_serverAndClient :
    ∃ p, run (step memory) (init empty) serverAndClient = some p ∧
      ∀ st : Statement, st.level ≤ .fatal →
        (Reaches (fun r l => (r.loggers l).written) p (execute memory p st) st ↔
          .warning ≤ st.level) := by
  have hfirst : (severities serverAndClient).head? = some .warning := rfl
  have hlast : (severities serverAndClient).getLast? = some .warning := rfl
  exact ⟨_, rfl, (last_start_decides_iff memory_documented (Runs.of_guarded rfl)
    hfirst hlast).2.mpr (by decide)⟩

/-- What the JNI library does for a client: the constructor of `NativeClientForJava` gives
`WARNING` and the function that has called it `DEBUG`. -/
def nativeClient : List (Action Bool) :=
  [.start ⟨true, ascii "/tmp/dousi/java-native-client.log", .warning, 10, 3⟩,
    .start ⟨true, ascii "tmp/dousi/java-client.log", .debug, 10, 3⟩]

/-- A `DOUSI_LOG(INFO)` after that is enabled, and dropped. -/
theorem nativeClient_info_dropped :
    ∃ p, Runs (step memory) (Creates memory) (init empty) nativeClient p ∧
      (severities nativeClient).getLast? = some .debug ∧
      ¬ (Reaches (fun r l => (r.loggers l).written) p
          (execute memory p ⟨ascii "logging_test.cc", 10, .log .info, [ascii "world"]⟩)
          ⟨ascii "logging_test.cc", 10, .log .info, [ascii "world"]⟩ ↔ LogLevel.debug ≤ .info) := by
  refine ⟨_, Runs.of_guarded rfl, rfl, fun h => ?_⟩
  obtain ⟨l, hl, hwritten⟩ := h.mpr (by decide)
  cases hl
  exact absurd (congrArg List.length hwritten) (by decide)

end Dousi.Common.LogThresholds
