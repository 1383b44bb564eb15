import Dousi.Client.Calls

/-!
# The 64-bit id of a call and the 32-bit id of its response
-/
namespace Dousi.Client.ObjectIds

open Dousi.Lib.Word
open Dousi.Lib.Transition
open Dousi.Stream.AsioStream
open Calls

/-- The key under which the response of a call is stored: the id is narrowed by
`Write`, echoed by the server and widened by the callback. -/
def responseKey (objectId : UInt64) : UInt64 := objectId.toUInt32.toUInt64

/-- `static_cast<long>(object_id)` in `NativeClientForJava::Invoke`. -/
def invokeResult (objectId : UInt64) : Int64 := objectId.toInt64

/-- The 32-bit id of a response as the `long` that the Java callback takes. -/
def callbackId (objectId : UInt32) : Int64 := objectId.toUInt64.toInt64

/-- The next call of a client: the id of its future and of `Invoke` is the one its
response comes under, and storing the response leaves what is stored for every
earlier call. -/
structure IdsAgree (s : Submitter) : Prop where
  future : responseKey s.currObjectId = s.currObjectId
  java : callbackId s.currObjectId.toUInt32 = invokeResult s.currObjectId
  earlier : ∀ call ∈ s.calls, ∀ data,
    (onResponse { s with clientLanguage := .cpp } ⟨s.currObjectId.toUInt32, data⟩).cachedObjects
      (responseKey call.objectId) = s.cachedObjects (responseKey call.objectId)

theorem responseKey_ofNat (n : Nat) : responseKey (UInt64.ofNat n) = UInt64.ofNat (n % 2 ^ 32) := by
  apply UInt64.toNat_inj.mp
  simp only [responseKey, UInt32.toNat_toUInt64, UInt64.toNat_toUInt32, UInt64.toNat_ofNat']
  omega

/-- What is stored under a key other than that of the response is kept. -/
theorem onResponse_other (s : Submitter) (objectId : UInt64) (data : Bytes) {key : UInt64}
    (h : key ≠ responseKey objectId) :
    (onResponse { s with clientLanguage := .cpp } ⟨objectId.toUInt32, data⟩).cachedObjects key =
      s.cachedObjects key := by
  exact Function.update_of_ne h ..

/-- Some response changes what is stored under its key. -/
theorem onResponse_same (s : Submitter) (objectId : UInt64) :
    ∃ data, (onResponse { s with clientLanguage := .cpp }
        ⟨objectId.toUInt32, data⟩).cachedObjects (responseKey objectId) ≠
      s.cachedObjects (responseKey objectId) := by
  have hset : ∀ data, (onResponse { s with clientLanguage := .cpp }
      ⟨objectId.toUInt32, data⟩).cachedObjects (responseKey objectId) = some data :=
    fun data => Function.update_self ..
  by_cases h : s.cachedObjects (responseKey objectId) = some []
  · exact ⟨[0], by rw [hset, h]; simp⟩
  · exact ⟨[], by rw [hset]; exact Ne.symm h⟩

/-- The call made `2 ^ 32` calls earlier, or a multiple of it, has the same key. -/
theorem earlier_same_key {s : Submitter} (h : Counted s) (hlen : 2 ^ 32 ≤ s.calls.length) :
    ∃ call ∈ s.calls, responseKey call.objectId = responseKey s.currObjectId := by
  have hlt : s.calls.length % 2 ^ 32 < s.calls.length := by omega
  refine ⟨s.calls[s.calls.length % 2 ^ 32], List.getElem_mem hlt, ?_⟩
  rw [h.ids _ _ (List.getElem?_eq_getElem hlt), h.counter, responseKey_ofNat, responseKey_ofNat,
    Nat.mod_mod]

theorem not_agree_of_wrapped {s : Submitter} (h : Counted s) (hlen : 2 ^ 32 ≤ s.calls.length) :
    ¬ IdsAgree s := by
  intro ha
  obtain ⟨call, hmem, hkey⟩ := earlier_same_key h hlen
  obtain ⟨data, hdata⟩ := onResponse_same s s.currObjectId
  apply hdata
  rw [← hkey]
  exact ha.earlier call hmem data

theorem agree_of_fresh {s : Submitter} (h : Counted s) (hlen : s.calls.length < 2 ^ 32) :
    IdsAgree s := by
  have hkey : responseKey s.currObjectId = s.currObjectId := by
    rw [h.counter, responseKey_ofNat, Nat.mod_eq_of_lt hlen]
  refine ⟨hkey, ?_, fun call hmem data => ?_⟩
  · exact congrArg UInt64.toInt64 hkey
  · obtain ⟨c, hc, hget⟩ := List.getElem_of_mem hmem
    refine onResponse_other s s.currObjectId data fun he => ?_
    rw [h.ids c call (List.getElem?_eq_some_iff.mpr ⟨hc, hget⟩), h.counter, responseKey_ofNat,
      responseKey_ofNat, Nat.mod_eq_of_lt hlen, Nat.mod_eq_of_lt (by omega)] at he
    have hn := ofNat_inj (by omega) (by omega) he
    omega

/-- The ids of the next call agree exactly when fewer than `2 ^ 32` calls were made. -/
theorem ids_agree_iff {order : ByteOrder} {language : ClientLanguage} {s : Submitter}
    (h : Reach (step order) Any (init language) s) :
    IdsAgree s ↔ s.calls.length < 2 ^ 32 := by
  have hc := counted_of_reach h
  constructor
  · intro ha
    by_contra hlen
    exact not_agree_of_wrapped hc (Nat.le_of_not_lt hlen) ha
  · exact agree_of_fresh hc

/-- A client of any age can be reached. -/
theorem reach_calls (order : ByteOrder) (language : ClientLanguage) (n : Nat) :
    ∃ s, Reach (step order) Any (init language) s ∧ s.calls.length = n := by
  induction n with
  | zero => exact ⟨_, .refl, rfl⟩
  | succ n ih =>
    obtain ⟨s, hs, hlen⟩ := ih
    refine ⟨_, hs.tail (a := .requestObjectID [] fun _ => true) trivial rfl, ?_⟩
    simp [hlen]

/-- After `2 ^ 32` calls the next future keeps the id `2 ^ 32`, but the response is
stored under 0, the key of the first call. -/
theorem wrapped_disagrees : ∃ s, Reach (step .little) Any (init .cpp) s ∧
    s.calls.length = 2 ^ 32 ∧ s.currObjectId = 4294967296 ∧ responseKey s.currObjectId = 0 ∧
    ¬ IdsAgree s := by
  obtain ⟨s, hs, hlen⟩ := reach_calls .little .cpp (2 ^ 32)
  have hc := counted_of_reach hs
  have hid : s.currObjectId = 4294967296 := by rw [hc.counter, hlen]; rfl
  exact ⟨s, hs, hlen, hid, by rw [hid]; rfl, not_agree_of_wrapped hc (Nat.le_of_eq hlen.symm)⟩

/-- Two calls, and the response `07` to the first one. -/
def oneStored : List Action :=
  [.requestObjectID [65] nonempty, .submit 0, .requestObjectID [66] nonempty, .submit 1] ++
  ([0, 0, 0, 0, 1, 0, 0, 0, 7].map .receive)

theorem ids_agree_oneStored : ∃ s, run (step .little) (init .cpp) oneStored = some s ∧
    s.calls.length = 2 ∧ s.cachedObjects 0 = some [7] ∧
    (IdsAgree s ↔ s.calls.length < 2 ^ 32) := by
  obtain ⟨s, hs, hcalls, hcached⟩ : ∃ s, run (step .little) (init .cpp) oneStored = some s ∧
      s.calls.length = 2 ∧ s.cachedObjects 0 = some [7] := ⟨_, rfl, rfl, rfl⟩
  exact ⟨s, hs, hcalls, hcached, ids_agree_iff (Reach.of_run hs)⟩

end Dousi.Client.ObjectIds
