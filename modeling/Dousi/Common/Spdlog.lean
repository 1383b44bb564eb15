import Dousi.Lib.Word
import Mathlib.Logic.Function.Basic
import Mathlib.Order.Lattice
import Mathlib.Order.Nat

/-!
# spdlog

The logging library is not part of the repository and enters as a structure of the
functions called, with what it documents of them stated apart.
-/
namespace Dousi.Common.Spdlog

open Dousi.Lib.Word (Bytes)

/-- `spdlog::level::level_enum`. -/
inductive LevelEnum where
  | trace
  | debug
  | info
  | warn
  | err
  | critical
  | off

/-- The value of the enumerator. -/
def LevelEnum.value : LevelEnum → Nat
  | .trace => 0
  | .debug => 1
  | .info => 2
  | .warn => 3
  | .err => 4
  | .critical => 5
  | .off => 6

theorem LevelEnum.value_injective : Function.Injective LevelEnum.value := by
  intro a b h
  cases a <;> cases b <;> first | rfl | cases h

instance : LinearOrder LevelEnum := LinearOrder.lift' LevelEnum.value LevelEnum.value_injective

/-- `R` is the registry with the loggers, `L` a shared pointer to a logger and `E` what the
file system answers when a file is opened. Beside the registry `log` returns the text of
the `spdlog_ex` it throws. -/
structure Library (R L E : Type) where
  rotatingLoggerMt : R → E → (loggerName fileName : Bytes) → (maxFileSize maxFiles : Nat) →
    R × Except Bytes L
  setLevel : R → LevelEnum → R
  flushOn : R → L → LevelEnum → R
  log : R → L → LevelEnum → Bytes → R × Option Bytes
  shutdown : R → R

section
variable {R L E : Type}

/-- What the library documents, given which loggers are registered, their levels and what
they have written to their files: `set_level` sets the level of all registered loggers,
nothing else does, and a logger drops the messages below its level. -/
structure Library.Documented (sp : Library R L E) (registered : R → L → Prop)
    (level : R → L → LevelEnum) (written : R → L → List (LevelEnum × Bytes)) : Prop where
  rotatingLoggerMt : ∀ r answer loggerName fileName maxFileSize maxFiles r' l,
    sp.rotatingLoggerMt r answer loggerName fileName maxFileSize maxFiles = (r', .ok l) →
      registered r' l
  setLevel : ∀ r k l, registered r l → level (sp.setLevel r k) l = k
  flushOn : ∀ r l k l', level (sp.flushOn r l k) l' = level r l'
  log : ∀ r l k text l', level (sp.log r l k text).1 l' = level r l'
  shutdown : ∀ r l, level (sp.shutdown r) l = level r l
  writes : ∀ r l k text, level r l ≤ k →
    written (sp.log r l k text).1 l = written r l ++ [(k, text)]
  drops : ∀ r l k text, k < level r l → written (sp.log r l k text).1 l = written r l

end

/-! A library that keeps its files in memory -/

structure Logger where
  registered : Bool
  level : LevelEnum
  written : List (LevelEnum × Bytes)

/-- The loggers made so far and their number. -/
structure Memory where
  made : Nat
  loggers : Nat → Logger

def empty : Memory := ⟨0, fun _ => ⟨false, .info, []⟩⟩

def modify (r : Memory) (l : Nat) (f : Logger → Logger) : Memory :=
  { r with loggers := Function.update r.loggers l (f (r.loggers l)) }

/-- The file system answers whether the file can be opened. -/
def memory : Library Memory Nat Bool where
  rotatingLoggerMt r opened _ fileName _ _ :=
    if opened then
      (modify { r with made := r.made + 1 } r.made fun _ => ⟨true, .info, []⟩, .ok r.made)
    else (r, .error fileName)
  setLevel r k := { r with
    loggers := fun l => if (r.loggers l).registered then { r.loggers l with level := k }
      else r.loggers l }
  flushOn r _ _ := r
  log r l k text :=
    if (r.loggers l).level ≤ k then
      (modify r l fun logger => { logger with written := logger.written ++ [(k, text)] }, none)
    else (r, none)
  shutdown r := { r with loggers := fun l => { r.loggers l with registered := false } }

theorem memory_documented :
    memory.Documented (fun r l => (r.loggers l).registered = true) (fun r l => (r.loggers l).level)
      (fun r l => (r.loggers l).written) where
  rotatingLoggerMt r opened _ fileName _ _ r' l h := by
    cases opened with
    | true =>
      cases h
      simp [modify]
    | false => cases h
  setLevel r k l h := by simp [memory, h]
  flushOn _ _ _ _ := rfl
  log r l k text l' := by
    by_cases hk : (r.loggers l).level ≤ k
    · by_cases hl : l' = l
      · subst hl
        simp [memory, hk, modify]
      · simp [memory, hk, modify, hl]
    · simp [memory, hk]
  shutdown _ _ := rfl
  writes r l k text hk := by simp [memory, hk, modify]
  drops r l k text hk := by simp [memory, not_le.mpr hk]

end Dousi.Common.Spdlog
