import Dousi.Executor.Routing

/-!
# The order in which the frames of a connection are handled

The frames of one connection run their callbacks on one io thread, one after another,
and go through the request queue in this order. As long as no worker pops a request
while another one has a request of the same connection in hand, the frames of a
connection are, in the order of arrival, those whose handlers have run, then the one
that a worker has in hand, the queued ones, and the one the io thread has in hand.
-/
namespace Dousi.Executor.Pipeline

open Dousi.Lib.Word
open Dousi.Lib.Log
open Dousi.Lib.Transition
open Dousi.Lib.Pool
open Dousi.Core.Msgpack
open Request Services InvokeHelper Server Traces
open Routing (Origin)

variable {τ : Type} {El : τ → Type} {σ : Type} {o : ExecutorOptions}

/-- The number of the frame whose request a thread has in hand. -/
def inHand : Job El σ → List Nat
  | .invoking ticket _ => [ticket]
  | .request ticket _ => [ticket]
  | .bound ticket _ _ => [ticket]
  | _ => []

def workers (jobs : Thread o → Job El σ) : List Nat :=
  (List.finRange o.workThreadNum).flatMap fun j => inHand (jobs (.inr j))

def arrivedOn (arrived : List Frame) (k : Nat) : List Frame :=
  arrived.filter fun f => f.connection = k

/-- The frames of connection `k` among those with the given numbers. -/
def on (arrived : List Frame) (k : Nat) (tickets : List Nat) : List Frame :=
  arrivedOn (tickets.filterMap fun t => arrived[t]?) k

/-- The numbers of the frames on their way, those furthest ahead first. -/
def line (s : State El σ o) (i : Fin o.ioThreadNum) : List Nat :=
  s.ran.map Run.ticket ++ workers s.jobs ++ s.requestQueue.map Prod.fst ++
    inHand (s.jobs (.inl i))

/-- The frames of connection `k` whose handlers have run, in the order of the runs. -/
def ranOn (s : State El σ o) (k : Nat) : List Frame := on s.arrived k (s.ran.map Run.ticket)

/-- A request that is performed on an io thread. -/
def Direct : Job El σ → Prop
  | .request _ _ => True
  | .bound _ _ _ => True
  | _ => False

/-- A frame has the thread of its connection. -/
def Threads (s : State El σ o) : Prop :=
  ∀ f ∈ s.arrived, ∃ c, s.acceptor.connections[f.connection]? = some c ∧
    f.ioThread = c.ioThread.val

/-- What an io thread has in hand is one of its own frames. -/
def Own (arrived : List Frame) (jobs : Thread o → Job El σ) : Prop :=
  ∀ (i : Fin o.ioThreadNum) t f, t ∈ inHand (jobs (.inl i)) → arrived[t]? = some f →
    f.ioThread = i.val

/-- No two workers have frames of one connection in hand. -/
def Alone (arrived : List Frame) (jobs : Thread o → Job El σ) : Prop :=
  ∀ (j j' : Fin o.workThreadNum) t t' k, j ≠ j' → t ∈ inHand (jobs (.inr j)) →
    t' ∈ inHand (jobs (.inr j')) → Origin arrived t k → ¬ Origin arrived t' k

/-- No request is performed on an io thread. -/
def NotDirect (jobs : Thread o → Job El σ) : Prop :=
  ∀ i : Fin o.ioThreadNum, ¬ Direct (jobs (.inl i))

/-- A worker pops a request when no worker has one of the same connection in hand, from its
pop to the return of its handler. -/
def InTurn (s : State El σ o) : Action o → Prop
  | .pop _ => ∀ e ∈ s.requestQueue.head?, ∀ (j : Fin o.workThreadNum) t k,
      t ∈ inHand (s.jobs (.inr j)) → Origin s.arrived e.1 k → ¬ Origin s.arrived t k
  | _ => True

instance (s : State El σ o) : (a : Action o) → Decidable (InTurn s a)
  | .pop _ =>
    decidable_of_iff (∀ e ∈ s.requestQueue.head?, ∀ j : Fin o.workThreadNum,
      ∀ t ∈ inHand (s.jobs (.inr j)), ∀ f ∈ s.arrived[e.1]?, ∀ g ∈ s.arrived[t]?,
        g.connection ≠ f.connection)
      ⟨fun h e he j t _ ht ⟨f, hf, hfk⟩ ⟨g, hg, hgk⟩ =>
          h e he j t ht f hf g hg (hgk.trans hfk.symm),
        fun h e he j t ht f hf g hg heq => h e he j t _ ht ⟨f, hf, rfl⟩ ⟨g, hg, heq⟩⟩
  | .accept _ | .arrive .. | .invoke _ | .lookup _ | .call _ | .respond _ | .take _ | .find _
  | .write _ => isTrue trivial

structure InLine (s : State El σ o) : Prop where
  order : ∀ k c, s.acceptor.connections[k]? = some c →
    arrivedOn s.arrived k = on s.arrived k (line s c.ioThread)
  threads : Threads s
  own : Own s.arrived s.jobs
  alone : Alone s.arrived s.jobs
  direct : 0 < o.workThreadNum → NotDirect s.jobs
  noQueue : o.workThreadNum = 0 → s.requestQueue = []

theorem on_append (arrived : List Frame) (k : Nat) (left right : List Nat) :
    on arrived k (left ++ right) = on arrived k left ++ on arrived k right := by
  simp [on, arrivedOn]

@[simp] theorem on_nil (arrived : List Frame) (k : Nat) : on arrived k [] = [] := rfl

/-- Frames of other connections are not seen. -/
theorem on_none {arrived : List Frame} {k : Nat} {tickets : List Nat}
    (h : ∀ t ∈ tickets, ¬ Origin arrived t k) : on arrived k tickets = [] := by
  refine List.filter_eq_nil_iff.mpr fun f hf hk => ?_
  obtain ⟨t, ht, hget⟩ := List.mem_filterMap.mp hf
  exact h t ht ⟨f, hget, of_decide_eq_true hk⟩

/-- A frame that arrives later is not among the earlier ones. -/
theorem on_arrive {arrived : List Frame} (f : Frame) (k : Nat) {tickets : List Nat}
    (h : ∀ t ∈ tickets, t < arrived.length) :
    on (arrived ++ [f]) k tickets = on arrived k tickets := by
  have hget : ∀ t ∈ tickets, (arrived ++ [f])[t]? = arrived[t]? := fun t ht =>
    List.getElem?_append_left (h t ht)
  rw [on, List.filterMap_congr hget, on]

theorem origin_arrive {arrived : List Frame} {f : Frame} {t k : Nat} (ht : t < arrived.length)
    (h : Origin (arrived ++ [f]) t k) : Origin arrived t k := by
  obtain ⟨g, hg, hk⟩ := h
  rw [List.getElem?_append_left ht] at hg
  exact ⟨g, hg, hk⟩

/-- A list of frames with members of one worker only. -/
theorem flatMap_single {α β : Type} {l : List α} {a : α} {g : α → List β} (hn : l.Nodup)
    (ha : a ∈ l) (h : ∀ b ≠ a, g b = []) : l.flatMap g = g a := by
  induction l with
  | nil => cases ha
  | cons b rest ih =>
    obtain ⟨hb, hrest⟩ := List.nodup_cons.mp hn
    rw [List.flatMap_cons]
    rcases List.mem_cons.mp ha with rfl | hmem
    · have hnil : rest.flatMap g = [] :=
        List.flatMap_eq_nil_iff.mpr fun c hc => h c fun he => hb (he ▸ hc)
      rw [hnil, List.append_nil]
    · rw [h b (fun he => hb (he ▸ hmem)), List.nil_append, ih hrest hmem]

theorem on_workers (arrived : List Frame) (k : Nat) (jobs : Thread o → Job El σ) :
    on arrived k (workers jobs) =
      (List.finRange o.workThreadNum).flatMap fun j => on arrived k (inHand (jobs (.inr j))) := by
  simp only [on, workers, arrivedOn, List.filterMap_flatMap, List.filter_flatMap]

theorem on_workers_congr {arrived : List Frame} {k : Nat} {jobs jobs' : Thread o → Job El σ}
    (h : ∀ j, on arrived k (inHand (jobs' (.inr j))) = on arrived k (inHand (jobs (.inr j)))) :
    on arrived k (workers jobs') = on arrived k (workers jobs) := by
  simp only [on_workers, h]

theorem on_workers_alone {arrived : List Frame} {k : Nat} {jobs : Thread o → Job El σ}
    {j : Fin o.workThreadNum}
    (h : ∀ j' ≠ j, on arrived k (inHand (jobs (.inr j'))) = []) :
    on arrived k (workers jobs) = on arrived k (inHand (jobs (.inr j))) := by
  rw [on_workers]
  exact flatMap_single (List.nodup_finRange _) (List.mem_finRange j) h

theorem workers_none (hw : o.workThreadNum = 0) (jobs : Thread o → Job El σ) :
    workers jobs = [] := by
  have hnil : List.finRange o.workThreadNum = [] := by rw [List.finRange_eq_nil_iff, hw]
  rw [workers, hnil]
  rfl

/-- What an io thread does leaves the workers as they are. -/
@[simp] theorem workers_inl (jobs : Thread o → Job El σ) (i : Fin o.ioThreadNum)
    (job : Job El σ) : workers (Function.update jobs (.inl i) job) = workers jobs := by
  simp [workers]

/-- What a worker does leaves the io threads as they are. -/
@[simp] theorem update_inr_inl (jobs : Thread o → Job El σ) (j : Fin o.workThreadNum)
    (job : Job El σ) (i : Fin o.ioThreadNum) :
    Function.update jobs (.inr j) job (.inl i) = jobs (.inl i) :=
  Function.update_of_ne Sum.inl_ne_inr ..

theorem update_inl_other (jobs : Thread o → Job El σ) {i i' : Fin o.ioThreadNum} (h : i' ≠ i)
    (job : Job El σ) : Function.update jobs (.inl i) job (.inl i') = jobs (.inl i') :=
  Function.update_of_ne (fun he => h (Sum.inl.inj he)) ..

theorem own_update {arrived : List Frame} {jobs : Thread o → Job El σ} (h : Own arrived jobs)
    (x : Thread o) {job : Job El σ} (hsub : ∀ t ∈ inHand job, t ∈ inHand (jobs x)) :
    Own arrived (Function.update jobs x job) := by
  intro i t f ht hf
  by_cases hi : .inl i = x
  · subst hi
    rw [Function.update_self] at ht
    exact h i t f (hsub t ht) hf
  · rw [Function.update_of_ne hi] at ht
    exact h i t f ht hf

theorem own_worker {arrived : List Frame} {jobs : Thread o → Job El σ} (h : Own arrived jobs)
    (j : Fin o.workThreadNum) (job : Job El σ) :
    Own arrived (Function.update jobs (.inr j) job) := by
  intro i t f ht hf
  rw [update_inr_inl] at ht
  exact h i t f ht hf

theorem alone_inl {arrived : List Frame} {jobs : Thread o → Job El σ} (h : Alone arrived jobs)
    (i : Fin o.ioThreadNum) (job : Job El σ) :
    Alone arrived (Function.update jobs (.inl i) job) := by
  intro j j' t t' k hne ht ht'
  rw [Function.update_of_ne Sum.inr_ne_inl] at ht ht'
  exact h j j' t t' k hne ht ht'

theorem alone_update {arrived : List Frame} {jobs : Thread o → Job El σ}
    (h : Alone arrived jobs) (x : Thread o) {job : Job El σ}
    (hsub : ∀ t ∈ inHand job, t ∈ inHand (jobs x)) :
    Alone arrived (Function.update jobs x job) := by
  have hmem : ∀ {y t}, t ∈ inHand (Function.update jobs x job y) → t ∈ inHand (jobs y) := by
    intro y t ht
    by_cases hy : y = x
    · subst hy
      rw [Function.update_self] at ht
      exact hsub t ht
    · rwa [Function.update_of_ne hy] at ht
  intro j j' t t' k hne ht ht'
  exact h j j' t t' k hne (hmem ht) (hmem ht')

theorem notDirect_update {jobs : Thread o → Job El σ} (h : NotDirect jobs) (x : Thread o)
    {job : Job El σ} (hj : Direct job → Direct (jobs x)) :
    NotDirect (Function.update jobs x job) := by
  intro i hd
  by_cases hi : .inl i = x
  · subst hi
    rw [Function.update_self] at hd
    exact h i (hj hd)
  · rw [Function.update_of_ne hi] at hd
    exact h i hd

theorem notDirect_worker {jobs : Thread o → Job El σ} (h : NotDirect jobs)
    (j : Fin o.workThreadNum) (job : Job El σ) :
    NotDirect (Function.update jobs (.inr j) job) := by
  intro i hd
  rw [update_inr_inl] at hd
  exact h i hd

/-- What an io thread has in hand is not of a connection of another thread. -/
theorem on_foreign {s : State El σ o} (h : InLine s) {k : Nat}
    {c : Accept.AsioStream o.ioThreadNum} (hk : s.acceptor.connections[k]? = some c)
    {i : Fin o.ioThreadNum} (hi : c.ioThread ≠ i) :
    on s.arrived k (inHand (s.jobs (.inl i))) = [] := by
  refine on_none ?_
  rintro t ht ⟨f, hf, rfl⟩
  obtain ⟨c', hc', hthread⟩ := h.threads f (List.mem_of_getElem? hf)
  obtain rfl := Option.some.inj (hk.symm.trans hc')
  exact hi (Fin.ext (hthread.symm.trans (h.own i t f ht hf)))

/-- A worker with nothing in hand takes a request of a connection that no other worker
has one of. -/
theorem on_workers_take (arrived : List Frame) (k : Nat) (jobs : Thread o → Job El σ)
    (j : Fin o.workThreadNum) (job : Job El σ) {ticket : Nat} (hempty : inHand (jobs (.inr j)) = [])
    (hjob : inHand job = [ticket])
    (halone : ∀ j' t, j' ≠ j → t ∈ inHand (jobs (.inr j')) → Origin arrived ticket k →
      ¬ Origin arrived t k) :
    on arrived k (workers (Function.update jobs (.inr j) job)) =
        on arrived k (workers jobs) ++ on arrived k [ticket] ∧
      on arrived k (workers (Function.update jobs (.inr j) job)) =
        on arrived k [ticket] ++ on arrived k (workers jobs) := by
  have hother : ∀ j' ≠ j, Function.update jobs (.inr j) job (.inr j') = jobs (.inr j') :=
    fun j' hne => Function.update_of_ne (fun he => hne (Sum.inr.inj he)) ..
  by_cases hticket : Origin arrived ticket k
  · have hnone : ∀ j' ≠ j, on arrived k (inHand (jobs (.inr j'))) = [] := fun j' hne =>
      on_none fun t ht => halone j' t hne ht hticket
    have hold : on arrived k (workers jobs) = [] := by
      rw [on_workers_alone hnone, hempty, on_nil]
    have hnew : on arrived k (workers (Function.update jobs (.inr j) job)) =
        on arrived k [ticket] := by
      rw [on_workers_alone fun j' hne => by rw [hother j' hne]; exact hnone j' hne,
        Function.update_self, hjob]
    rw [hnew, hold, List.nil_append, List.append_nil]
    exact ⟨rfl, rfl⟩
  · have hnil : on arrived k [ticket] = [] := on_none fun t ht => by
      rwa [List.mem_singleton.mp ht]
    have hsame : on arrived k (workers (Function.update jobs (.inr j) job)) =
        on arrived k (workers jobs) := by
      refine on_workers_congr fun j' => ?_
      by_cases hj : j' = j
      · subst hj
        rw [Function.update_self, hjob, hnil, hempty, on_nil]
      · rw [hother j' hj]
    rw [hsame, hnil, List.nil_append, List.append_nil]
    exact ⟨rfl, rfl⟩

/-- All numbers on the line are numbers of frames. -/
theorem line_lt {mp : Codec τ El} {s : State El σ o} (h : Traced mp s)
    (i : Fin o.ioThreadNum) : ∀ t ∈ line s i, t < s.arrived.length := by
  have hframe : ∀ {ticket request}, FromFrame mp s.arrived ticket request →
      ticket < s.arrived.length := by
    rintro ticket request ⟨f, hf, _⟩
    exact (List.getElem?_eq_some_iff.mp hf).1
  have hjob : ∀ x t, t ∈ inHand (s.jobs x) → t < s.arrived.length := by
    intro x t ht
    have hx := h.jobs x
    cases hj : s.jobs x with
    | idle => rw [hj] at ht; cases ht
    | invoking ticket frame =>
      rw [hj] at ht hx
      obtain rfl := List.mem_singleton.mp ht
      exact (List.getElem?_eq_some_iff.mp hx).1
    | request ticket request =>
      rw [hj] at ht hx
      obtain rfl := List.mem_singleton.mp ht
      exact hframe hx
    | bound ticket request method =>
      rw [hj] at ht hx
      obtain rfl := List.mem_singleton.mp ht
      exact hframe hx
    | returned ticket request result => rw [hj] at ht; cases ht
  intro t ht
  simp only [line, List.mem_append, or_assoc] at ht
  rcases ht with hran | hworker | hqueue | hio
  · obtain ⟨run, hrun, rfl⟩ := List.mem_map.mp hran
    exact hframe (h.ran run hrun)
  · obtain ⟨j, _, hj⟩ := List.mem_flatMap.mp hworker
    exact hjob _ t hj
  · obtain ⟨e, he, rfl⟩ := List.mem_map.mp hqueue
    exact hframe (h.requests e he)
  · exact hjob _ t hio

theorem threads_step {mp : Codec τ El} {s t : State El σ o} {a : Action o} (h : Threads s)
    (hs : step mp s a = some t) : Threads t := by
  have hold : ∀ f ∈ s.arrived, ∃ c, t.acceptor.connections[f.connection]? = some c ∧
      f.ioThread = c.ioThread.val := by
    intro f hf
    obtain ⟨c, hc, hthread⟩ := h f hf
    rcases acceptor_step hs with hsame | ⟨action, _, ha⟩
    · exact ⟨c, by rw [hsame]; exact hc, hthread⟩
    · obtain ⟨c', hc', heq⟩ := Accept.thread_step hc ha
      exact ⟨c', hc', by rw [hthread, heq]⟩
  intro f hf
  cases a with
  | arrive k objectId body =>
    obtain ⟨stream, hk, hadd⟩ := added_step hs
    rw [hadd.arrived] at hf
    rcases List.mem_append.mp hf with hf | hf
    · exact hold f hf
    · obtain rfl := List.mem_singleton.mp hf
      rcases acceptor_step hs with hsame | ⟨action, ha, _⟩
      · exact ⟨stream, by rw [hsame]; exact hk, rfl⟩
      · cases ha
  | _ =>
    rw [arrived_step hs (by simp)] at hf
    exact hold f hf

theorem inLine_loop (r : Registry (MethodType El σ)) (w : Objects El σ) :
    InLine (loop o r w) := by
  refine ⟨fun k c hc => ?_, ?_, ?_, ?_, fun _ i hd => hd, fun _ => rfl⟩
  · simp [loop, Accept.loop, Accept.doAccept] at hc
  · intro f hf
    cases hf
  · intro i t f ht
    cases ht
  · intro j j' t t' k _ ht
    cases ht

/-- A connection that is accepted has sent nothing. -/
theorem inLine_accept {s : State El σ o} {action : Accept.Action}
    {acceptor : Accept.Acceptor o.ioThreadNum} (h : InLine s)
    (hthreads : Threads { s with acceptor }) (ha : Accept.step s.acceptor action = some acceptor) :
    InLine { s with acceptor } := by
  refine ⟨fun k c hc => ?_, hthreads, h.own, h.alone, h.direct, h.noQueue⟩
  cases hk : s.acceptor.connections[k]? with
  | some c₀ =>
    obtain ⟨c', hc', hthread⟩ := Accept.thread_step hk ha
    obtain rfl := Option.some.inj (hc.symm.trans hc')
    rw [h.order k c₀ hk, ← hthread]
    rfl
  | none =>
    have hnone : ∀ f ∈ s.arrived, f.connection ≠ k := by
      rintro f hf rfl
      obtain ⟨c', hc', _⟩ := h.threads f hf
      rw [hk] at hc'
      cases hc'
    have hline : on s.arrived k (line s c.ioThread) = [] := by
      refine on_none ?_
      rintro t _ ⟨f, hf, hfk⟩
      exact hnone f (List.mem_of_getElem? hf) hfk
    refine Eq.trans ?_ hline.symm
    exact List.filter_eq_nil_iff.mpr fun f hf hfk => hnone f hf (of_decide_eq_true hfk)

theorem inLine_arrive {mp : Codec τ El} {s t : State El σ o} {k : Nat} {objectId : UInt32}
    {body : Bytes} (ht : Traced mp s) (h : InLine s) (hthreads : Threads t)
    (hs : arrive s k objectId body = some t) : InLine t := by
  have hlt := line_lt ht
  obtain ⟨stream, hk, _, hidle, rfl⟩ := arrive_cases hs
  refine ⟨fun k' c hc => ?_, hthreads, ?_, ?_,
    fun hw => notDirect_update (h.direct hw) _ False.elim, h.noQueue⟩
  · have horder := h.order k' c hc
    by_cases hi : c.ioThread = stream.ioThread
    · have hline : line s c.ioThread =
          s.ran.map Run.ticket ++ workers s.jobs ++ s.requestQueue.map Prod.fst := by
        simp [line, hi, hidle, inHand]
      simp only [line, workers_inl, hi, Function.update_self, inHand]
      rw [on_append, ← hline, on_arrive _ _ (hlt c.ioThread), ← horder]
      simp [on, arrivedOn]
    · have hne : k ≠ k' := by
        rintro rfl
        exact hi (congrArg _ (Option.some.inj (hc.symm.trans hk)))
      simp only [line, workers_inl, update_inl_other _ hi]
      refine Eq.trans ?_ (on_arrive _ k' (hlt c.ioThread)).symm
      rw [← horder]
      simp [arrivedOn, hne]
  · intro i t f hmem hf
    by_cases hi : i = stream.ioThread
    · subst hi
      simp only [Function.update_self, inHand, List.mem_singleton] at hmem
      subst hmem
      obtain rfl := Option.some.inj ((get_last ..).symm.trans hf)
      rfl
    · simp only [update_inl_other _ hi] at hmem
      rcases get_snoc hf with hold | ⟨rfl, rfl⟩
      · exact h.own i t f hmem hold
      · have := hlt i s.arrived.length (by simp only [line, List.mem_append]; exact .inr hmem)
        omega
  · have hworker : ∀ {j t}, t ∈ inHand (s.jobs (.inr j)) → t < s.arrived.length := by
      intro j t hmem
      refine hlt stream.ioThread t ?_
      simp only [line, List.mem_append, workers, List.mem_flatMap]
      exact .inl (.inl (.inr ⟨j, List.mem_finRange j, hmem⟩))
    refine alone_inl (fun j j' t t' k hne hmem hmem' hO hO' => ?_) _ _
    exact h.alone j j' t t' k hne hmem hmem' (origin_arrive (hworker hmem) hO)
      (origin_arrive (hworker hmem') hO')

/-- A thread goes on with the same frame in hand. -/
theorem inLine_keep {s : State El σ o} (h : InLine s) (t : Thread o) (job : Job El σ)
    (hhand : inHand job = inHand (s.jobs t))
    (hdirect : 0 < o.workThreadNum → Direct job → Direct (s.jobs t)) :
    InLine { s with jobs := Function.update s.jobs t job } := by
  refine ⟨fun k c hc => ?_, h.threads, own_update h.own t (by rw [hhand]; exact fun _ ht => ht),
    alone_update h.alone t (by rw [hhand]; exact fun _ ht => ht),
    fun hpos => notDirect_update (h.direct hpos) t (hdirect hpos), h.noQueue⟩
  have hkeep := update_keep inHand hhand
  rw [h.order k c hc]
  simp only [line, workers, hkeep]

theorem inLine_invoke {mp : Codec τ El} {s t : State El σ o} {i : Fin o.ioThreadNum}
    (h : InLine s) (hs : invokeMethodOn mp s i = some t) : InLine t := by
  obtain ⟨ticket, frame, hj, ⟨_, rfl⟩ | ⟨request, _, ⟨hw, rfl⟩ | ⟨hw, rfl⟩⟩⟩ :=
    invokeMethodOn_cases hs
  · exact ⟨h.order, h.threads, h.own, h.alone, h.direct, h.noQueue⟩
  · refine ⟨fun k c hc => ?_, h.threads, own_update h.own _ (by simp [inHand]),
      alone_inl h.alone _ _, fun hw => notDirect_update (h.direct hw) _ False.elim,
      fun hz => by omega⟩
    rw [h.order k c hc]
    by_cases hi : c.ioThread = i
    · subst hi
      simp [line, hj, inHand]
    · have hother := on_foreign h hc hi
      rw [hj, inHand] at hother
      simp only [line, workers_inl, List.map_append, List.map_cons, List.map_nil, on_append,
        update_inl_other _ hi, hother, List.append_nil]
  · exact inLine_keep h _ _ (by rw [hj]; rfl) fun hpos => by omega

/-- The worker that pops a request in its turn is alone with its connection. -/
theorem alone_take {arrived : List Frame} {jobs : Thread o → Job El σ} {ticket : Nat}
    (h : Alone arrived jobs) (j : Fin o.workThreadNum) {job : Job El σ}
    (hjob : inHand job = [ticket])
    (hturn : ∀ (j' : Fin o.workThreadNum) t k, t ∈ inHand (jobs (.inr j')) →
      Origin arrived ticket k → ¬ Origin arrived t k) :
    Alone arrived (Function.update jobs (.inr j) job) := by
  intro j₁ j₂ t₁ t₂ k hne h₁ h₂ hO hO'
  by_cases hj₁ : j₁ = j
  · subst hj₁
    rw [Function.update_self, hjob, List.mem_singleton] at h₁
    subst h₁
    rw [Function.update_of_ne (fun he => hne (Sum.inr.inj he).symm)] at h₂
    exact hturn j₂ t₂ k h₂ hO hO'
  · rw [Function.update_of_ne (fun he => hj₁ (Sum.inr.inj he))] at h₁
    by_cases hj₂ : j₂ = j
    · subst hj₂
      rw [Function.update_self, hjob, List.mem_singleton] at h₂
      subst h₂
      exact hturn j₁ t₁ k h₁ hO' hO
    · rw [Function.update_of_ne (fun he => hj₂ (Sum.inr.inj he))] at h₂
      exact h j₁ j₂ t₁ t₂ k hne h₁ h₂ hO hO'

theorem inLine_pop {s t : State El σ o} {j : Fin o.workThreadNum} (h : InLine s)
    (hturn : InTurn s (.pop j)) (hs : pop s j = some t) : InLine t := by
  obtain ⟨ticket, request, rest, hidle, hq, rfl⟩ := pop_cases hs
  have hturn' := hturn (ticket, request) (by rw [hq]; rfl)
  refine ⟨fun k c hc => ?_, h.threads, own_worker h.own j _, alone_take h.alone j rfl hturn',
    fun hpos => notDirect_worker (h.direct hpos) j _, fun hz => by have := j.isLt; omega⟩
  have htake := (on_workers_take s.arrived k s.jobs j (.request ticket request)
    (by rw [hidle]; rfl) rfl fun j' t _ ht => hturn' j' t k ht).1
  have hcons : on s.arrived k (ticket :: rest.map Prod.fst) =
      on s.arrived k [ticket] ++ on s.arrived k (rest.map Prod.fst) := on_append _ _ [ticket] _
  rw [h.order k c hc, line, hq, List.map_cons]
  simp only [line, update_inr_inl, on_append, htake, hcons, List.append_assoc]

theorem inLine_lookup {s u : State El σ o} {t : Thread o} (h : InLine s)
    (hs : lookupMethod s t = some u) : InLine u := by
  obtain ⟨ticket, request, hj, rfl⟩ := lookupMethod_cases hs
  have hkeep := inLine_keep h t (.bound ticket request
    ((s.registeredMethods request.methodName).getD none)) (by rw [hj]; rfl)
    fun _ _ => by rw [hj]; trivial
  exact ⟨hkeep.order, hkeep.threads, hkeep.own, hkeep.alone, hkeep.direct, hkeep.noQueue⟩

/-- A request that is called is the first of its connection. -/
theorem inLine_call {mp : Codec τ El} {s u : State El σ o} {t : Thread o} (h : InLine s)
    (hs : callMethod mp s t = some u) : InLine u := by
  obtain ⟨ticket, request, method, hj, ⟨w, rfl, _⟩ | ⟨b, w, result, _, _, rfl⟩⟩ :=
    callMethod_cases hs
  · exact ⟨h.order, h.threads, h.own, h.alone, h.direct, h.noQueue⟩
  refine ⟨fun k c hc => ?_, h.threads, own_update h.own _ (by simp [inHand]),
    alone_update h.alone _ (by simp [inHand]),
    fun hpos => notDirect_update (h.direct hpos) _ False.elim, h.noQueue⟩
  rw [h.order k c hc]
  cases t with
  | inl i =>
    have hz : o.workThreadNum = 0 := by
      rcases Nat.eq_zero_or_pos o.workThreadNum with hz | hpos
      · exact hz
      · exact absurd (by rw [hj]; trivial) (h.direct hpos i)
    by_cases hi : c.ioThread = i
    · subst hi
      simp [line, workers_none hz, h.noQueue hz, hj, inHand]
    · have hother := on_foreign h hc hi
      rw [hj, inHand] at hother
      simp only [line, workers_inl, List.map_append, List.map_cons, List.map_nil, on_append,
        update_inl_other _ hi, hother, List.append_nil]
  | inr j =>
    have hback : Function.update (Function.update s.jobs (.inr j)
        (.returned ticket request result)) (.inr j) (.bound ticket request method) = s.jobs := by
      rw [Function.update_idem, ← hj, Function.update_eq_self]
    have htake := (on_workers_take s.arrived k
      (Function.update s.jobs (.inr j) (.returned ticket request result)) j
      (.bound ticket request method) (by rw [Function.update_self]; rfl) rfl
      fun j' t' hne ht' => by
        rw [Function.update_of_ne (fun he => hne (Sum.inr.inj he))] at ht'
        exact h.alone j j' ticket t' k (Ne.symm hne) (by rw [hj]; exact List.mem_singleton.mpr rfl)
          ht').2
    rw [hback] at htake
    simp only [line, update_inr_inl, List.map_append, List.map_cons, List.map_nil, on_append,
      htake, List.append_assoc]

theorem inLine_respond {s u : State El σ o} {t : Thread o} (h : InLine s)
    (hs : respond s t = some u) : InLine u := by
  obtain ⟨ticket, request, result, hj, rfl⟩ := respond_cases hs
  have hkeep := inLine_keep h t .idle (by rw [hj]; rfl) fun _ => False.elim
  exact ⟨hkeep.order, hkeep.threads, hkeep.own, hkeep.alone, hkeep.direct, hkeep.noQueue⟩

theorem inLine_step {mp : Codec τ El} {s t : State El σ o} {a : Action o}
    (ht : Traced mp s) (h : InLine s) (hturn : InTurn s a) (hs : step mp s a = some t) :
    InLine t := by
  have hthreads := threads_step h.threads hs
  obtain ⟨_, hs⟩ := step_cases hs
  cases a with
  | accept action =>
    obtain ⟨acceptor, ha, rfl⟩ := Option.map_eq_some_iff.mp hs
    exact inLine_accept h hthreads ha
  | arrive k objectId body => exact inLine_arrive ht h hthreads hs
  | invoke i => exact inLine_invoke h hs
  | pop j => exact inLine_pop h hturn hs
  | lookup t => exact inLine_lookup h hs
  | call t => exact inLine_call h hs
  | respond t => exact inLine_respond h hs
  | take n =>
    obtain ⟨ticket, response, rest, _, _, rfl⟩ := take_cases hs
    exact ⟨h.order, h.threads, h.own, h.alone, h.direct, h.noQueue⟩
  | find n =>
    obtain ⟨ticket, response, _, ⟨_, rfl⟩ | ⟨k, _, rfl⟩⟩ := find_cases hs
    all_goals exact ⟨h.order, h.threads, h.own, h.alone, h.direct, h.noQueue⟩
  | write n =>
    obtain ⟨ticket, response, k, _, rfl⟩ := write_cases hs
    exact ⟨h.order, h.threads, h.own, h.alone, h.direct, h.noQueue⟩

/-- The frames of a connection are handled in the order in which they arrived. -/
theorem ranOn_prefix_arrivedOn {s : State El σ o} (h : InLine s) (k : Nat) :
    ranOn s k <+: arrivedOn s.arrived k := by
  cases hk : s.acceptor.connections[k]? with
  | none =>
    have hnil : ranOn s k = [] := by
      refine on_none ?_
      rintro t _ ⟨f, hf, rfl⟩
      obtain ⟨c, hc, _⟩ := h.threads f (List.mem_of_getElem? hf)
      rw [hk] at hc
      cases hc
    rw [hnil]
    exact List.nil_prefix
  | some c =>
    rw [h.order k c hk, line, List.append_assoc, List.append_assoc, on_append]
    exact List.prefix_append ..

/-- A single worker pops a request with nothing in hand. -/
theorem inTurn_of_one {mp : Codec τ El} {s t : State El σ o} {a : Action o}
    (hw : o.workThreadNum ≤ 1) (hs : step mp s a = some t) : InTurn s a := by
  obtain ⟨_, hs⟩ := step_cases hs
  cases a with
  | pop j =>
    obtain ⟨ticket, request, rest, hidle, _, rfl⟩ := pop_cases hs
    intro e _ j' t' k ht'
    have hj : j' = j := Fin.ext (by have := j.isLt; have := j'.isLt; omega)
    rw [hj, hidle] at ht'
    cases ht'
  | _ => trivial

end Dousi.Executor.Pipeline