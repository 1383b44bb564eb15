import Dousi.Core.Nameof
import Dousi.Lib.Log
import Dousi.System.RemoteCall

/-!
# Remote: the handler that an annotated call reaches

`Remote(METHOD)` takes the name of a method from the text of its expression. Both ends use
it: `RegisterMethod` for the key, `Call` for what it sends. The qualifiers in front of the
name and the template arguments behind it are in neither.
-/
namespace Dousi.System.RemoteNames

open Dousi.Lib.Word
open Dousi.Lib.Log
open Dousi.Lib.Transition
open Dousi.Core.Msgpack Dousi.Core.Nameof
open Dousi.Executor.Request Dousi.Executor.Services Dousi.Executor.InvokeHelper
open RemoteCall

section
variable {M : Type}

/-- `Remote(METHOD)`, from the text and the value of the expression. -/
def remote (text : Bytes) (method : M) : Option (RemoteMethod M) :=
  (nameof text).map fun methodName => ⟨methodName, method⟩

theorem remote_text (e : NamedExpr) (method : M) :
    remote e.text method = some ⟨e.name, method⟩ := by
  rw [remote, e.nameof_text.1]
  rfl

/-- What a server's program does before `Loop`. -/
inductive Statement (M : Type) where
  | createService (serviceName : Bytes)
  | registerMethod (service : Nat) (expr : NamedExpr) (method : M)

def Statement.op : Statement M → Option (Op M)
  | .createService serviceName => some (.createService serviceName)
  | .registerMethod service expr method => (remote expr.text method).map (.registerMethod service)

def execute (r : Registry M) (s : Statement M) : Option (Registry M) :=
  s.op.bind (Executor.Services.step r)

/-- What a statement binds to a name. -/
def Statement.binds (name : Bytes) : Statement M → Option (Bound M)
  | .createService _ => none
  | .registerMethod service expr method =>
    if expr.name = name then some ⟨service, method⟩ else none

/-- The last registration whose expression ends in this name. -/
def lastRegistered (program : List (Statement M)) (name : Bytes) : Option (Bound M) :=
  last (Statement.binds name) program

/-- One statement puts its own binding, if it has one, before the earlier ones. -/
theorem registeredMethods_execute {r t : Registry M} {s : Statement M}
    (hs : execute r s = some t) (name : Bytes) :
    t.registeredMethods name = (s.binds name).or (r.registeredMethods name) := by
  obtain ⟨op, hop, hs⟩ := Option.bind_eq_some_iff.mp hs
  cases s with
  | createService serviceName =>
    cases hop
    cases hs
    rfl
  | registerMethod service expr method =>
    rw [Statement.op, remote_text, Option.map_some] at hop
    cases hop
    obtain ⟨serviceName, -, rfl⟩ := Option.map_eq_some_iff.mp hs
    by_cases hname : expr.name = name
    · subst hname
      simp only [Statement.binds, if_true, Option.some_or, Function.update_self]
    · simp only [Statement.binds, if_neg hname, Option.none_or,
        Function.update_of_ne (Ne.symm hname)]

theorem registeredMethods_run {program : List (Statement M)} {r t : Registry M}
    (hrun : run execute r program = some t) (name : Bytes) :
    t.registeredMethods name = (lastRegistered program name).or (r.registeredMethods name) := by
  induction program generalizing r with
  | nil =>
    cases hrun
    rfl
  | cons s program ih =>
    obtain ⟨u, hs, hrest⟩ := Option.bind_eq_some_iff.mp hrun
    rw [ih hrest, registeredMethods_execute hs, lastRegistered, lastRegistered, last_cons,
      Option.or_assoc]

end

variable {τ : Type} {El : τ → Type} {σ : Type}

/-- A call through `Remote` runs the handler of the last statement of the server's program
that registered an expression with the same last name: for whatever service and class, and
with whatever template arguments. -/
theorem remote_dispatch {mp : Codec τ El} (hmp : mp.Documented)
    {program : List (Statement (MethodType El σ))} {r : Registry (MethodType El σ)}
    (hrun : run execute empty program = some r) (e : NamedExpr) {c : Call El σ}
    (hremote : remote e.text c.remoteMethod.method = some c.remoteMethod) (hundo : Undone mp c)
    (streamId : UInt64) (objectId : UInt32) :
    dispatch mp r streamId objectId (c.body mp) = lastRegistered program e.name := by
  have hname : c.remoteMethod.methodName = e.name := by
    rw [remote_text] at hremote
    rw [← Option.some.inj hremote]
  rw [dispatch, invokeMethod_body hmp hundo, Option.bind_some, lookup, hname,
    registeredMethods_run hrun]
  exact Option.or_none

open ProgramOrder (perform get)

theorem identifier_f : IsIdentifier [102] := ⟨rfl, List.forall_mem_singleton.mpr rfl⟩

/-- `<i>` and `<b>`. -/
theorem matched_i : Groups '<'.toUInt8 '>'.toUInt8 [60, 105, 62] :=
  .group (.other (by decide) (by decide) .nil) .nil

theorem matched_b : Groups '<'.toUInt8 '>'.toUInt8 [60, 98, 62] :=
  .group (.other (by decide) (by decide) .nil) .nil

theorem short_args {args : Bytes} (h : args.length ≤ 3) : args.length < 18446744073709551616 := by
  omega

/-- `&V::f<i>` and `&W::f<b>`. -/
def vf : NamedExpr :=
  ⟨[38, 86, 58, 58], [102], [60, 105, 62], [], rfl, identifier_f, matched_i, .nil, rfl,
    short_args (Nat.le_refl 3), short_args (Nat.zero_le 3)⟩

def wf : NamedExpr :=
  ⟨[38, 87, 58, 58], [102], [60, 98, 62], [], rfl, identifier_f, matched_b, .nil, rfl,
    short_args (Nat.le_refl 3), short_args (Nat.zero_le 3)⟩

/-- Each of two services registers a method of its own. -/
def twoClasses : List (Statement (MethodType (fun _ : Unit => Int) Bytes)) :=
  [.createService [86], .registerMethod 0 vf perform, .createService [87],
    .registerMethod 1 wf get]

/-- `Call(Remote(&V::f<i>), "456")` on the handle of `V` is a call of `W`'s method. -/
def callVf : Call (fun _ : Unit => Int) Bytes :=
  ⟨[86], ⟨[102], perform⟩, ([52, 53, 54], ()), 0, 0⟩

theorem remote_dispatch_callVf :
    ∃ r, run execute empty twoClasses = some r ∧
      remote vf.text callVf.remoteMethod.method = some callVf.remoteMethod ∧
      dispatch fixCodec r 0 0 (callVf.body fixCodec) = lastRegistered twoClasses vf.name ∧
      lastRegistered twoClasses vf.name = some ⟨1, get⟩ := by
  obtain ⟨r, hr⟩ : ∃ r, run execute empty twoClasses = some r := by
    simp only [run, twoClasses, execute, Statement.op, remote_text, Option.map_some]
    exact ⟨_, rfl⟩
  have hremote := remote_text vf callVf.remoteMethod.method
  have hundo : Undone fixCodec callVf := ⟨rfl, rfl, rfl, rfl, trivial⟩
  exact ⟨r, hr, hremote, remote_dispatch fixCodec_documented hr vf hremote hundo 0 0, rfl⟩

end Dousi.System.RemoteNames
