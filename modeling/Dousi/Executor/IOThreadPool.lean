import Dousi.Executor.Accept
import Dousi.Lib.Interface
import Dousi.Lib.RoundRobin

/-!
# IOThreadPool

The pool hands out its `io_service` objects in turn. The index is a `uint16_t`, taken
modulo the size of the pool after each call. `DoAccept` makes one call for each socket.
-/
namespace Dousi.Executor

/-- `allThreads` holds the `io_service` objects, each by the number of the round of the
constructor's loop that has made it. -/
structure IOThreadPool where
  poolSize : UInt16
  nextIndex : UInt16
  allThreads : List Nat

end Dousi.Executor

namespace Dousi.Executor.IOThreadPool

open Dousi.Lib.Interface
open Dousi.Lib.RoundRobin
open Dousi.Lib.Transition
open Accept (Acceptor doAccept loop)

/-- The constructor. -/
def ioThreadPool (poolSize : UInt16) : IOThreadPool := ⟨poolSize, 0, List.range poolSize.toNat⟩

/-- `none` when the index is out of bounds, or the remainder is one by zero. -/
def getNextIOService (p : IOThreadPool) : Option (IOThreadPool × Nat) :=
  if p.poolSize = 0 then none
  else p.allThreads[p.nextIndex.toNat]?.map fun ret =>
    ({ p with nextIndex := (p.nextIndex + 1) % p.poolSize }, ret)

/-- The calls made one after another. -/
def call (p : IOThreadPool) (_ : Unit) : Option (IOThreadPool × Nat) := getNextIOService p

def next (p : IOThreadPool) (_ : Unit) : Option IOThreadPool := (getNextIOService p).map Prod.fst

/-- The index lies in `all_threads_`, and its increment is a 16-bit number. -/
def InBounds (p : IOThreadPool) (_ : Unit) : Prop :=
  p.nextIndex.toNat < p.allThreads.length ∧ p.nextIndex.toNat + 1 < 2 ^ 16

/-- The pool of this size after `k` calls. -/
structure After (poolSize : UInt16) (k : Nat) (p : IOThreadPool) : Prop where
  size : p.poolSize = poolSize
  index : p.nextIndex.toNat = k % poolSize.toNat
  threads : p.allThreads = List.range poolSize.toNat

theorem after_ioThreadPool (poolSize : UInt16) : After poolSize 0 (ioThreadPool poolSize) :=
  ⟨rfl, (Nat.zero_mod _).symm, rfl⟩

section
variable {poolSize : UInt16} (hpos : 0 < poolSize)
include hpos

theorem toNat_pos : 0 < poolSize.toNat := UInt16.lt_iff_toNat_lt.mp hpos

theorem after_inBounds {k : Nat} {p : IOThreadPool} (h : After poolSize k p) : InBounds p () := by
  have hlt := Nat.mod_lt k (toNat_pos hpos)
  have hsize := poolSize.toNat_lt
  rw [InBounds, h.index, h.threads, List.length_range]
  omega

/-- One call takes the service whose turn it is and passes the turn on. -/
theorem getNextIOService_after {k : Nat} {p : IOThreadPool} (h : After poolSize k p) :
    ∃ q, getNextIOService p = some (q, k % poolSize.toNat) ∧ After poolSize (k + 1) q := by
  obtain ⟨hindex, hwrap⟩ := after_inBounds hpos h
  have hne : p.poolSize ≠ 0 := by
    rw [h.size]
    rintro rfl
    exact absurd hpos (by decide)
  have hret : p.allThreads[p.nextIndex.toNat]? = some (k % poolSize.toNat) := by
    rw [h.index, h.threads, List.getElem?_range (Nat.mod_lt k (toNat_pos hpos))]
  refine ⟨{ p with nextIndex := (p.nextIndex + 1) % p.poolSize }, ?_, h.size, ?_,
    h.threads⟩
  · rw [getNextIOService, if_neg hne, hret, Option.map_some]
  · have hadd : (p.nextIndex + 1).toNat = p.nextIndex.toNat + 1 := by
      rw [UInt16.toNat_add, UInt16.toNat_one, Nat.mod_eq_of_lt hwrap]
    rw [UInt16.toNat_mod, hadd, h.size, h.index, Nat.mod_add_mod]

/-- Any number of calls, from any call on. -/
theorem calls_after (n : Nat) {k : Nat} {p : IOThreadPool} (h : After poolSize k p) :
    outputs call p (List.replicate n ()) = some (turns poolSize.toNat k n) ∧
      Along call InBounds p (List.replicate n ()) := by
  induction n generalizing k p with
  | zero => exact ⟨rfl, trivial⟩
  | succ n ih =>
    obtain ⟨q, hq, hnext⟩ := getNextIOService_after hpos h
    obtain ⟨houtputs, hbounds⟩ := ih hnext
    refine ⟨outputs_cons.mpr ⟨_, _, hq, houtputs, turns_succ ..⟩, after_inBounds hpos h, ?_⟩
    intro r hr
    obtain rfl := Option.some.inj (hq.symm.trans hr)
    exact hbounds

/-- The pool has `pool_size_` different services. Every call is within bounds, call `i`
returns service `i % pool_size_`, and no service is given more than one connection more than
another one. -/
theorem round_robin (n : Nat) :
    (ioThreadPool poolSize).allThreads.Nodup ∧
    (ioThreadPool poolSize).allThreads.length = poolSize.toNat ∧
    ∃ services, outputs call (ioThreadPool poolSize) (List.replicate n ()) = some services ∧
      Along call InBounds (ioThreadPool poolSize) (List.replicate n ()) ∧
      services.length = n ∧
      (∀ i < n, services[i]? = some (i % poolSize.toNat) ∧
        (ioThreadPool poolSize).allThreads[i % poolSize.toNat]? = some (i % poolSize.toNat)) ∧
      ∀ a ∈ (ioThreadPool poolSize).allThreads, ∀ b ∈ (ioThreadPool poolSize).allThreads,
        services.count a ≤ services.count b + 1 := by
  obtain ⟨houtputs, hbounds⟩ := calls_after hpos n (after_ioThreadPool poolSize)
  refine ⟨List.nodup_range, List.length_range, _, houtputs, hbounds, turns_length ..,
    fun i hi => ⟨?_, ?_⟩, fun a ha b hb => ?_⟩
  · rw [turns_get _ _ hi, Nat.zero_add]
  · exact List.getElem?_range (Nat.mod_lt i (toNat_pos hpos))
  · exact turns_balanced (List.mem_range.mp ha) (List.mem_range.mp hb) n

/-- `DoAccept` makes one call, and listens with the service that it returns. -/
theorem doAccept_call {a : Acceptor poolSize.toNat} {p : IOThreadPool}
    (h : After poolSize a.nextIndex p) :
    ∃ q ret, getNextIOService p = some (q, ret.val) ∧ (doAccept a).phase = .listening ret ∧
      After poolSize (doAccept a).nextIndex q := by
  obtain ⟨q, hq, hnext⟩ := getNextIOService_after hpos h
  rw [Nat.mod_eq_of_lt a.nextIndex.isLt] at hq
  exact ⟨q, a.nextIndex, hq, rfl, hnext.size, hnext.index.trans (Nat.mod_mod ..).symm,
    hnext.threads⟩

/-- The acceptor steps through the states of the pool. -/
theorem accept_refines {a : Acceptor poolSize.toNat}
    (h : Reach Accept.step Any (loop (toNat_pos hpos)) a) :
    ∃ p, Reach next Any (ioThreadPool poolSize) p ∧ After poolSize a.nextIndex p := by
  have listens (b : Acceptor poolSize.toNat) (p : IOThreadPool)
      (hp : After poolSize b.nextIndex p) :
      ∃ q, next p () = some q ∧ After poolSize (doAccept b).nextIndex q := by
    obtain ⟨q, _, hq, _, hnext⟩ := doAccept_call hpos hp
    exact ⟨q, by rw [next, hq]; rfl, hnext⟩
  obtain ⟨p, hp, hafter⟩ := listens ⟨.listening ⟨0, toNat_pos hpos⟩, ⟨0, toNat_pos hpos⟩, 0,
    fun _ => none, []⟩ (ioThreadPool poolSize) (after_ioThreadPool poolSize)
  obtain ⟨q, hq, hr⟩ := h.simulate (R := fun b p => After poolSize b.nextIndex p)
    (D := Any) hafter fun b act c p hb _ hs => by
      cases Accept.step_moves hs with
      | accept _ | insert _ _ | readError _ | writeError _ => exact .inl hb
      | acceptError _ | start _ =>
        obtain ⟨q, hq, hr⟩ := listens b p hb
        exact .inr ⟨(), q, trivial, hq, hr⟩
  exact ⟨q, (Reach.single trivial hp).trans hq, hr⟩

end

/-- The pool of the default options, two rounds and a half. -/
theorem round_robin_default :
    (ioThreadPool 8).allThreads.Nodup ∧ (ioThreadPool 8).allThreads.length = 8 ∧
    ∃ services, outputs call (ioThreadPool 8) (List.replicate 20 ()) = some services ∧
      Along call InBounds (ioThreadPool 8) (List.replicate 20 ()) ∧
      services.length = 20 ∧
      (∀ i < 20, services[i]? = some (i % 8) ∧
        (ioThreadPool 8).allThreads[i % 8]? = some (i % 8)) ∧
      ∀ a ∈ (ioThreadPool 8).allThreads, ∀ b ∈ (ioThreadPool 8).allThreads,
        services.count a ≤ services.count b + 1 :=
  round_robin (by decide) 20

end Dousi.Executor.IOThreadPool
