import NetBsd.Lib.LinkedList
import NetBsd.Lib.Queues
import Mathlib.Data.BitVec
import Mathlib.Data.Fintype.Basic
import Mathlib.Algebra.BigOperators.Group.Finset.Basic

/-!
# Sleep queues and run queues

`sleep`, `tsleep`, `unsleep`, `endtsleep`, `wakeup` and `setrun`, and under them `setrq`, `remrq`
and the choice of `swtch`. A sleep queue is a list with one link and a pointer to its last link,
shared by all channels with one hash value. The run queues are circles. Both use the same link of
a process.

## Main definitions

* `State`: the queues, and what the routines read of a process
* `setrq`, `remrq`, `swtch`: the run queues
* `enqueue`, `unsleep`, `wakeup`, `setrun`, `endtsleep`: the sleep queues
* `Queued s sleepq runq`: the pointers are those of queues with these processes

## Main results

* `Queued.setrq_queued`, `Queued.remrq_queued`, `Queued.swtch_queued`: what the run queue routines
  do to the queues
* `Queued.enqueue_queued`, `Queued.dequeue_queued`: how a process comes to a sleep queue and
  leaves it
-/

namespace Synch

open LinkedList (Ref Lst last addrs)
open InsQueue (Queues Ring SameAt)

/-- The values of `p_stat`; `free` is no process. -/
inductive Stat where
  | free
  | SSLEEP
  | SWAIT
  | SRUN
  | SIDL
  | SZOMB
  | SSTOP
  deriving DecidableEq, Repr

abbrev Chan : Type := BitVec 32

/-- A link is one of a process or of the head of a run queue. -/
abbrev Node (P : Type) : Type := InsQueue.Node (Fin 32) P

/-- The place that holds a pointer: `sq_head` of a sleep queue, or a `p_link`. -/
abbrev Place (P : Type) : Type := Ref (Fin 64) (Node P)

/-- The sleep queues `slpque`, the run queues `qs` with `whichqs`, and what is used of a process.
No `p_wchan` is `none`, and `p_load` is `SLOAD`. -/
structure State (P : Type) where
  links : LinkedList.Links (Fin 64) (Node P)
  sq_tailp : Fin 64 → Option (Place P)
  p_rlink : Node P → Option (Node P)
  whichqs : Fin 32 → Bool
  p_wchan : P → Option Chan
  p_stat : P → Stat
  p_load : P → Bool
  p_pri : P → Fin 128
  curproc : Option P

variable {P : Type}

/-- `HASH(x)`. -/
def HASH (x : Chan) : Fin 64 :=
  ⟨((x.sshiftRight 5) &&& 63#32).toNat % 64, Nat.mod_lt _ (by decide)⟩

/-- The run queue of a priority. -/
def qnum (pri : Fin 128) : Fin 32 := ⟨pri.val / 4, by omega⟩

section Routines

variable [DecidableEq P]

/-! ## The run queues -/

/-- The run queues after an edit of their links, with the bit of the queue `k` set or cleared. -/
def State.setRuns (s : State P) (k : Fin 32) (q : InsQueue.Links (Node P)) (bit : Bool) :
    State P :=
  { s with
    links := { s.links with next := q.forw }
    p_rlink := q.back
    whichqs := Function.update s.whichqs k bit }

/-- `setrq`: link a process on the tail of its run queue. -/
def setrq (s : State P) (p : P) : Except Fault (State P) :=
  if (s.p_rlink (.item p)).isSome then .error .panic
  else
    let k := qnum (s.p_pri p)
    match s.p_rlink (.head k) with
    | none => .error .deref
    | some tail =>
      let p_link := Function.update s.links.next (.item p) (some (.head k))
      let p_rlink := Function.update s.p_rlink (.item p) (some tail)
      let p_rlink := Function.update p_rlink (.head k) (some (.item p))
      .ok (s.setRuns k ⟨Function.update p_link tail (some (.item p)), p_rlink⟩ true)

/-- The four moves that take a process off the run queue `k`, and the bit of the queue after
them. -/
def unlinkRun (s : State P) (k : Fin 32) (p : P) : Except Fault (State P) :=
  match InsQueue.remque ⟨s.links.next, s.p_rlink⟩ (.item p) with
  | .error e => .error e
  | .ok q => .ok (s.setRuns k q (decide (q.forw (.head k) ≠ some (.head k))))

/-- `remrq`: take a process off its run queue. -/
def remrq (s : State P) (p : P) : Except Fault (State P) :=
  let k := qnum (s.p_pri p)
  if s.whichqs k then unlinkRun s k p else .error .panic

/-- The choice of `swtch`: the first process of the first run queue that is full, or idle. -/
def swtch (s : State P) : Except Fault (State P) :=
  match (List.finRange 32).find? s.whichqs with
  | none => .ok { s with curproc := none }
  | some k =>
    match s.links.next (.head k) with
    | some (.item p) =>
      match unlinkRun s k p with
      | .error e => .error e
      | .ok s => .ok { s with curproc := some p }
    | _ => .error .deref

/-! ## The sleep queues -/

/-- The first part of `sleep` and `tsleep`: the process goes to the end of the queue of `chan`. -/
def enqueue (s : State P) (p : P) (chan : Chan) : Except Fault (State P) :=
  let qp := HASH chan
  let links :=
    match s.links.head qp with
    | none => some (s.links.set (.head qp) (some (.item p)))
    | some _ => (s.sq_tailp qp).map fun tailp => s.links.set tailp (some (.item p))
  match links with
  | none => .error .deref
  | some links =>
    .ok { s with
      p_wchan := Function.update s.p_wchan p (some chan)
      sq_tailp := Function.update s.sq_tailp qp (some (.next (.item p)))
      links := links.set (.next (.item p)) none }

/-- The loop of `unsleep`: the place that points to the process. -/
def place (L : LinkedList.Links (Fin 64) (Node P)) (p : P) :
    ℕ → Place P → Except Fault (Place P)
  | 0, _ => .error .loop
  | fuel + 1, hp =>
    match L.get hp with
    | none => .error .deref
    | some a => if a = .item p then .ok hp else place L p fuel (.next a)

/-- The process leaves the sleep queue `qp`, where `hp` points to it. -/
def dequeue (s : State P) (qp : Fin 64) (hp : Place P) (p : P) : State P :=
  { s with
    links := s.links.set hp (s.links.next (.item p))
    sq_tailp :=
      if s.sq_tailp qp = some (.next (.item p)) then Function.update s.sq_tailp qp (some hp)
      else s.sq_tailp
    p_wchan := Function.update s.p_wchan p none }

/-- `unsleep`: remove a process from its wait queue. -/
def unsleep (fuel : ℕ) (s : State P) (p : P) : Except Fault (State P) :=
  match s.p_wchan p with
  | none => .ok s
  | some chan =>
    match place s.links p fuel (.head (HASH chan)) with
    | .error e => .error e
    | .ok hp => .ok (dequeue s (HASH chan) hp p)

def State.setStat (s : State P) (p : P) (stat : Stat) : State P :=
  { s with p_stat := Function.update s.p_stat p stat }

def State.setPri (s : State P) (p : P) (pri : Fin 128) : State P :=
  { s with p_pri := Function.update s.p_pri p pri }

/-- The loop of `wakeup` from the place `q` of the queue of `chan`, begun anew after each process
that is made runnable. A process that is not in memory awakens the swapper, that sleeps on
`proc0`. -/
def wakeupLoop (proc0 : Chan) : ℕ → State P → Chan → Place P → Except Fault (State P)
  | 0, _, _, _ => .error .loop
  | fuel + 1, s, chan, q =>
    match s.links.get q with
    | none => .ok s
    | some (.head _) => .error .deref
    | some (.item p) =>
      if s.p_wchan p = some chan then
        let s := dequeue s (HASH chan) q p
        if s.p_stat p = .SSLEEP then do
          let s := s.setStat p .SRUN
          let s ←
            if s.p_load p then setrq s p
            else wakeupLoop proc0 fuel s proc0 (.head (HASH proc0))
          wakeupLoop proc0 fuel s chan (.head (HASH chan))
        else wakeupLoop proc0 fuel s chan q
      else wakeupLoop proc0 fuel s chan (.next (.item p))

/-- `wakeup`: set all processes sleeping on `chan` to run state. -/
def wakeup (proc0 : Chan) (fuel : ℕ) (s : State P) (chan : Chan) : Except Fault (State P) :=
  wakeupLoop proc0 fuel s chan (.head (HASH chan))

/-- `setrun`: make a process runnable, and put it on the run queue if it is in memory. -/
def setrun (proc0 : Chan) (fuel : ℕ) (s : State P) (p : P) : Except Fault (State P) := do
  let s ←
    match s.p_stat p with
    | .SSTOP | .SSLEEP => unsleep fuel s p
    | .SIDL => pure s
    | _ => .error .panic
  let s := s.setStat p .SRUN
  if s.p_load p then setrq s p else wakeup proc0 fuel s proc0

/-- `endtsleep`: the time of a sleep is up. -/
def endtsleep (proc0 : Chan) (fuel : ℕ) (s : State P) (p : P) : Except Fault (State P) :=
  if s.p_wchan p = none then .ok s
  else if s.p_stat p = .SSLEEP then setrun proc0 fuel s p
  else unsleep fuel s p

end Routines

/-! ## What is on the queues -/

/-- The channel that a link is asleep on. -/
def State.val (s : State P) : Node P → Option Chan
  | .head _ => none
  | .item p => s.p_wchan p

/-- The pointers are those of queues: the sleep queue `h` has the processes `sleepq h` in this
order, each with its channel, and the run queue `k` those of `runq k`. A process that sleeps is
on the queue of its channel and on no run queue, and one that is on no run queue has no reverse
link. -/
structure Queued (s : State P) (sleepq : Fin 64 → List (Node P × Chan))
    (runq : Fin 32 → List P) : Prop where
  runs : Queues ⟨s.links.next, s.p_rlink⟩ runq
  full : ∀ k, s.whichqs k = true ↔ runq k ≠ []
  sleeps : ∀ h, Lst s.val s.links.next (s.links.head h) (sleepq h)
  tail : ∀ h, s.sq_tailp h = some (last (.head h) (sleepq h)) ∨
    s.sq_tailp h = none ∧ sleepq h = []
  hash : ∀ h a c, (a, c) ∈ sleepq h → HASH c = h
  asleep : ∀ p c, s.p_wchan p = some c → (.item p, c) ∈ sleepq (HASH c)
  apart : ∀ p k, p ∈ runq k → s.p_wchan p = none
  number : ∀ p k, p ∈ runq k → qnum (s.p_pri p) = k
  isolated : ∀ p, (∀ k, p ∉ runq k) → s.p_rlink (.item p) = none

variable {s s' : State P} {sleepq : Fin 64 → List (Node P × Chan)} {runq : Fin 32 → List P}
  {p b : P} {k : Fin 32} {h : Fin 64} {chan c : Chan}

/-- Only the queues and the channels matter, and which queues the priorities name. -/
theorem Queued.congr (hq : Queued s sleepq runq) (hl : s'.links = s.links)
    (ht : s'.sq_tailp = s.sq_tailp) (hr : s'.p_rlink = s.p_rlink) (hw : s'.whichqs = s.whichqs)
    (hc : s'.p_wchan = s.p_wchan)
    (hp : ∀ p k, p ∈ runq k → qnum (s'.p_pri p) = qnum (s.p_pri p)) :
    Queued s' sleepq runq := by
  have hval : s'.val = s.val := by
    funext a
    cases a with
    | head k => rfl
    | item p => exact congrFun hc p
  exact ⟨by rw [hl, hr]; exact hq.runs, by rw [hw]; exact hq.full,
    by rw [hl, hval]; exact hq.sleeps, by rw [ht]; exact hq.tail, hq.hash,
    by rw [hc]; exact hq.asleep, by rw [hc]; exact hq.apart,
    fun p k hk => by rw [hp p k hk]; exact hq.number p k hk, by rw [hr]; exact hq.isolated⟩

/-- What is on a sleep queue is a process that sleeps there. -/
theorem Queued.mem_iff (hq : Queued s sleepq runq) :
    (.item p, c) ∈ sleepq h ↔ s.p_wchan p = some c ∧ HASH c = h := by
  constructor
  · exact fun hm => ⟨(hq.sleeps h).val_eq hm, hq.hash h _ c hm⟩
  · rintro ⟨hc, rfl⟩
    exact hq.asleep p c hc

theorem Queued.mem_item {a : Node P} (hq : Queued s sleepq runq) (hm : (a, c) ∈ sleepq h) :
    ∃ p, a = .item p ∧ s.p_wchan p = some c := by
  have hval := (hq.sleeps h).val_eq hm
  cases a with
  | head k => cases hval
  | item p => exact ⟨p, rfl, hval⟩

/-- No process that is not asleep is on a sleep queue. -/
theorem Queued.not_addr (hq : Queued s sleepq runq) (hp : s.p_wchan p = none) (h : Fin 64) :
    .item p ∉ addrs (sleepq h) := by
  intro hm
  obtain ⟨c, hc⟩ := LinkedList.mem_addrs.1 hm
  rw [(hq.mem_iff.1 hc).1] at hp
  cases hp

/-- What else is kept of the processes. -/
structure Same (s s' : State P) : Prop where
  wchan : s'.p_wchan = s.p_wchan
  stat : s'.p_stat = s.p_stat
  load : s'.p_load = s.p_load
  pri : s'.p_pri = s.p_pri
  cur : s'.curproc = s.curproc

theorem Queued.not_run {a : Node P} (hq : Queued s sleepq runq) (ha : a ∈ addrs (sleepq h))
    (k : Fin 32) : a ∉ .head k :: (runq k).map .item := by
  intro hm
  obtain ⟨c, hc⟩ := LinkedList.mem_addrs.1 ha
  obtain ⟨p, rfl, hp⟩ := hq.mem_item hc
  rcases List.mem_cons.1 hm with hm | hm
  · cases hm
  · obtain ⟨b, hb, hbp⟩ := List.mem_map.1 hm
    obtain rfl := InsQueue.Node.item.inj hbp
    rw [hq.apart b k hb] at hp
    cases hp

/-- The sleep queues do not notice what happens to the links of others. -/
theorem Queued.sleeps_congr {next : Node P → Option (Node P)} (hq : Queued s sleepq runq)
    (hn : ∀ a, (∃ h, a ∈ addrs (sleepq h)) → next a = s.links.next a) (h : Fin 64) :
    Lst s.val next (s.links.head h) (sleepq h) :=
  (hq.sleeps h).congr (fun a ha => hn a ⟨h, ha⟩) fun _ _ => rfl

theorem Same.setRuns (s : State P) (k : Fin 32) (q : InsQueue.Links (Node P)) (bit : Bool) :
    Same s (s.setRuns k q bit) := ⟨rfl, rfl, rfl, rfl, rfl⟩

/-- An edit of the run queues that leaves the links of the sleepers alone. -/
theorem Queued.setRuns {q : InsQueue.Links (Node P)} {bit : Bool} {runq' : Fin 32 → List P}
    (hq : Queued s sleepq runq) (hruns : Queues q runq')
    (hfull : ∀ k', Function.update s.whichqs k bit k' = true ↔ runq' k' ≠ [])
    (hs : ∀ a, (∃ h, a ∈ addrs (sleepq h)) → q.forw a = s.links.next a)
    (hp : ∀ b k', b ∈ runq' k' → s.p_wchan b = none ∧ qnum (s.p_pri b) = k')
    (hi : ∀ b, (∀ k', b ∉ runq' k') → q.back (.item b) = none) :
    Queued (s.setRuns k q bit) sleepq runq' where
  runs := hruns
  full := hfull
  sleeps := hq.sleeps_congr hs
  tail := hq.tail
  hash := hq.hash
  asleep := hq.asleep
  apart := fun b k' hb => (hp b k' hb).1
  number := fun b k' hb => (hp b k' hb).2
  isolated := hi

section Runs

variable [DecidableEq P]

/-- `setrq` puts a process that is on no queue at the end of its run queue. -/
theorem Queued.setrq_queued (hq : Queued s sleepq runq) (hp : s.p_wchan p = none)
    (hn : ∀ k, p ∉ runq k) :
    ∃ s', setrq s p = .ok s' ∧ Same s s' ∧
      Queued s' sleepq (Function.update runq (qnum (s.p_pri p))
        (runq (qnum (s.p_pri p)) ++ [p])) := by
  generalize hk : qnum (s.p_pri p) = k
  have hnew := InsQueue.not_mem_of_new hn k
  obtain ⟨tail, htail, hmem⟩ : ∃ tail, s.p_rlink (.head k) = some tail ∧
      tail ∈ InsQueue.Node.head k :: (runq k).map .item :=
    ⟨_, (hq.runs.ring k).walk.back_eq, InsQueue.final_mem _ _⟩
  have hne : tail ≠ .item p := fun heq => hnew (heq ▸ hmem)
  obtain ⟨q', hok, hring, hsame⟩ := (hq.runs.ring k).insertLast hnew
  -- The assembler writes the link of the process first, which is no other link.
  have hset : setrq s p = .ok (s.setRuns k q' true) := by
    simp only [InsQueue.insertLast, htail, Except.ok.injEq] at hok
    rw [← hok, Function.update_comm hne]
    simp only [setrq, hq.isolated p hn, Option.isSome_none, Bool.false_eq_true, if_false,
      hk, htail]
  have hruns := hq.runs.insert hn (List.perm_append_singleton p (runq k))
    (by rw [List.map_append]; exact hring) hsame
  refine ⟨_, hset, Same.setRuns s k q' true, hq.setRuns hruns (fun k' => ?_) ?_
    (fun b k' hb => ?_) fun b hb => ?_⟩
  · by_cases hkk : k' = k
    · simp [hkk]
    · simp only [ne_eq, Function.update_of_ne hkk]
      exact hq.full k'
  · rintro a ⟨h, ha⟩
    refine (hsame a (hq.not_run ha k) ?_).1
    rintro rfl
    exact hq.not_addr hp h ha
  · rcases InsQueue.mem_update.1 hb with ⟨hb, rfl⟩ | ⟨hb, -⟩
    · rcases List.mem_append.1 hb with hb | hb
      · exact ⟨hq.apart b _ hb, hq.number b _ hb⟩
      · rw [List.mem_singleton.1 hb]; exact ⟨hp, hk⟩
    · exact ⟨hq.apart b k' hb, hq.number b k' hb⟩
  · have hbk : b ∉ runq k ++ [p] := by simpa using hb k
    have hb' : ∀ k', b ∉ runq k' := by
      intro k' hm
      by_cases hkk : k' = k
      · exact hbk (List.mem_append_left _ (hkk ▸ hm))
      · exact hb k' (by rwa [Function.update_of_ne hkk])
    have hbp : b ≠ p := fun heq => hbk (by simp [heq])
    exact (hsame (.item b) (InsQueue.not_mem_of_new hb' k)
      fun heq => hbp (InsQueue.Node.item.inj heq)).2.trans (hq.isolated b hb')

/-- A process comes off the run queue it is on. -/
theorem Queued.unlinkRun_queued (hq : Queued s sleepq runq) (hp : p ∈ runq k) :
    ∃ s', unlinkRun s k p = .ok s' ∧ Same s s' ∧
      Queued s' sleepq fun k => (runq k).erase p := by
  obtain ⟨q', hok, hruns, hsame, hnone⟩ := hq.runs.remque hp
  refine ⟨_, by rw [unlinkRun, hok], Same.setRuns s k q' _,
    hq.setRuns hruns (fun k' => ?_) ?_ (fun b k' hb => ?_) fun b hb => ?_⟩
  · by_cases hkk : k' = k
    · have hfirst := hruns.forw_head k
      rw [InsQueue.firstNode] at hfirst
      subst hkk
      rw [Function.update_self, decide_eq_true_iff, hfirst]
      cases (runq k').erase p <;> simp
    · rw [Function.update_of_ne hkk, List.erase_of_not_mem fun hm =>
        hkk (hq.runs.apart k' k p hm hp)]
      exact hq.full k'
  · rintro a ⟨h, ha⟩
    exact (hsame a (hq.not_run ha k)).1
  · have hb := List.mem_of_mem_erase hb
    exact ⟨hq.apart b k' hb, hq.number b k' hb⟩
  · by_cases hbp : b = p
    · rw [hbp]; exact hnone
    · have hb' : ∀ k', b ∉ runq k' := fun k' hm =>
        hb k' ((List.mem_erase_of_ne hbp).2 hm)
      exact (hsame (.item b) (InsQueue.not_mem_of_new hb' k)).2.trans (hq.isolated b hb')

/-- `remrq` takes a process off its run queue. -/
theorem Queued.remrq_queued (hq : Queued s sleepq runq) (hp : p ∈ runq k) :
    ∃ s', remrq s p = .ok s' ∧ Same s s' ∧ Queued s' sleepq fun k => (runq k).erase p := by
  obtain rfl := hq.number p k hp
  have hfull : s.whichqs (qnum (s.p_pri p)) = true :=
    (hq.full _).2 (List.ne_nil_of_mem hp)
  rw [remrq, if_pos hfull]
  exact hq.unlinkRun_queued hp

/-- `swtch` runs the first process of a run queue with none before it, or idles when there is
none on the run queues. -/
theorem Queued.swtch_queued (hq : Queued s sleepq runq) :
    (swtch s = .ok { s with curproc := none } ∧ ∀ k, runq k = []) ∨
    ∃ k p l s' s'', runq k = p :: l ∧ (∀ k' < k, runq k' = []) ∧ Same s s' ∧
      s'' = { s' with curproc := some p } ∧ swtch s = .ok s'' ∧
      Queued s' sleepq fun k => (runq k).erase p := by
  cases hf : (List.finRange 32).find? s.whichqs with
  | none =>
    left
    refine ⟨by rw [swtch, hf], fun k => ?_⟩
    by_contra hne
    exact List.find?_eq_none.1 hf k (List.mem_finRange k) ((hq.full k).2 hne)
  | some k =>
    right
    have hk : s.whichqs k = true := List.find?_some hf
    have hbefore : ∀ k' < k, runq k' = [] := by
      intro k' hlt
      by_contra hne
      have hw := (hq.full k').2 hne
      obtain ⟨-, pre, post, heq, hpre⟩ := List.find?_eq_some_iff_append.1 hf
      have hmem : k' ∈ pre := by
        have hsorted : (pre ++ k :: post).Pairwise (· < ·) := heq ▸ List.pairwise_lt_finRange 32
        have hm : k' ∈ pre ++ k :: post := heq ▸ List.mem_finRange k'
        rcases List.mem_append.1 hm with hm | hm
        · exact hm
        · rcases List.mem_cons.1 hm with rfl | hm
          · exact absurd hlt (lt_irrefl _)
          · have := (List.pairwise_cons.1 (List.pairwise_append.1 hsorted).2.1).1 k' hm
            exact absurd hlt this.not_gt
      simpa [hw] using hpre k' hmem
    obtain ⟨p, l, hl⟩ := List.exists_cons_of_ne_nil ((hq.full k).1 hk)
    have hhead : s.links.next (.head k) = some (.item p) := by
      have := hq.runs.forw_head k
      rwa [InsQueue.firstNode, hl] at this
    obtain ⟨s', hok, hsame, hq'⟩ := hq.unlinkRun_queued (p := p) (k := k) (by simp [hl])
    exact ⟨k, p, l, s', _, hl, hbefore, hsame, rfl, by simp only [swtch, hf, hhead, hok], hq'⟩

end Runs

/-- The sleep queue `h` after an edit, when the links of the other queues are left alone. -/
theorem Queued.setSleep (chan : Chan) {L : LinkedList.Links (Fin 64) (Node P)}
    {tailp : Fin 64 → Option (Place P)} {wchan : P → Option Chan} {m : List (Node P × Chan)}
    (hq : Queued s sleepq runq)
    (hs' : s' = { s with links := L, sq_tailp := tailp, p_wchan := wchan })
    (hm : Lst s'.val L.next (L.head h) m)
    (hhead : ∀ h' ≠ h, L.head h' = s.links.head h')
    (hnext : ∀ a, (∀ c, (a, c) ∉ sleepq h) → (a, chan) ∉ m → L.next a = s.links.next a)
    (htail : tailp h = some (last (.head h) m)) (htail' : ∀ h' ≠ h, tailp h' = s.sq_tailp h')
    (hhash : ∀ a c, (a, c) ∈ m → HASH c = h)
    (hw : ∀ b c, wchan b = some c ↔ s.p_wchan b = some c ∧ HASH c ≠ h ∨ (.item b, c) ∈ m)
    (hrun : ∀ b k, b ∈ runq k → wchan b = none) :
    Queued s' (Function.update sleepq h m) runq := by
  subst hs'
  have hother : ∀ {h' a}, h' ≠ h → a ∈ addrs (sleepq h') → L.next a = s.links.next a := by
    intro h' a hh ha
    obtain ⟨c, hc⟩ := LinkedList.mem_addrs.1 ha
    obtain ⟨b, rfl, hb⟩ := hq.mem_item hc
    have hh' := hq.hash h' _ c hc
    refine hnext _ (fun c' hc' => hh ?_) fun hc' => hh ?_
    · have hb' := (hq.mem_iff.1 hc').1
      rw [hb] at hb'
      rw [← hh', Option.some.inj hb', hq.hash h _ c' hc']
    · rcases (hw b chan).2 (Or.inr hc') |> (hw b chan).1 with ⟨hb', hne⟩ | -
      · exact absurd (hhash _ _ hc') hne
      · have hval := (LinkedList.Lst.val_eq hm hc')
        have hc₁ : wchan b = some c := (hw b c).2 (Or.inl ⟨hb, hh'.symm ▸ hh⟩)
        have hc₂ : wchan b = some chan := hval
        rw [hc₁] at hc₂
        rw [← hh', Option.some.inj hc₂, hhash _ _ hc']
  have hoff : ∀ {k a}, a ∈ InsQueue.Node.head k :: (runq k).map InsQueue.Node.item →
      L.next a = s.links.next a := by
    intro k a ha
    refine hnext a (fun c hc => hq.not_run (LinkedList.mem_addrs.2 ⟨c, hc⟩) k ha) fun hc => ?_
    have hval := (LinkedList.Lst.val_eq hm hc)
    rcases List.mem_cons.1 ha with rfl | ha
    · cases hval
    · obtain ⟨b, hb, rfl⟩ := List.mem_map.1 ha
      exact nomatch (hrun b k hb).symm.trans hval
  refine ⟨⟨fun k => (hq.runs.ring k).congr fun x hx => ⟨hoff hx, rfl⟩, hq.runs.apart⟩, hq.full,
    fun h' => ?_, fun h' => ?_, fun h' a c hc => ?_, fun b c hb => ?_, hrun, hq.number,
    hq.isolated⟩
  · by_cases hh : h' = h
    · rw [hh, Function.update_self]; exact hm
    · rw [Function.update_of_ne hh]
      show Lst _ L.next (L.head h') (sleepq h')
      rw [hhead h' hh]
      refine (hq.sleeps h').congr (fun a ha => hother hh ha) fun a ha => ?_
      obtain ⟨c, hc⟩ := LinkedList.mem_addrs.1 ha
      obtain ⟨b, rfl, hb⟩ := hq.mem_item hc
      have hne : HASH c ≠ h := (hq.hash h' _ c hc).symm ▸ hh
      exact ((hw b c).2 (Or.inl ⟨hb, hne⟩)).trans hb.symm
  · by_cases hh : h' = h
    · rw [hh, Function.update_self]; exact Or.inl htail
    · rw [Function.update_of_ne hh]
      show tailp h' = _ ∨ tailp h' = none ∧ _
      rw [htail' h' hh]
      exact hq.tail h'
  · by_cases hh : h' = h
    · rw [hh, Function.update_self] at hc
      rw [hh]; exact hhash a c hc
    · rw [Function.update_of_ne hh] at hc
      exact hq.hash h' a c hc
  · by_cases hh : HASH c = h
    · rw [hh, Function.update_self]
      rcases (hw b c).1 hb with ⟨-, hne⟩ | hin
      · exact absurd hh hne
      · exact hin
    · rw [Function.update_of_ne hh]
      rcases (hw b c).1 hb with ⟨hb, -⟩ | hin
      · exact hq.asleep b c hb
      · exact absurd (hhash _ _ hin) hh

theorem last_cases (pre : List (Node P × Chan)) :
    last (.head h : Place P) pre = .head h ∨
      ∃ a ∈ addrs pre, last (.head h : Place P) pre = .next a := by
  cases pre with
  | nil => exact Or.inl rfl
  | cons n pre => exact Or.inr (LinkedList.last_mem n.1 n.2 pre)

section Sleeps

variable [DecidableEq P]

theorem head_set_of_ne {L : LinkedList.Links (Fin 64) (Node P)} {r : Place P} {h' : Fin 64}
    (hr : r ≠ .head h') (v : Option (Node P)) : (L.set r v).head h' = L.head h' :=
  LinkedList.Links.get_set_of_ne hr.symm v

theorem next_set_of_ne {L : LinkedList.Links (Fin 64) (Node P)} {r : Place P} {a : Node P}
    (hr : r ≠ .next a) (v : Option (Node P)) : (L.set r v).next a = L.next a :=
  LinkedList.Links.get_set_of_ne hr.symm v

/-- `enqueue` puts a process that is on no queue at the end of the queue of the channel. -/
theorem Queued.enqueue_queued (hq : Queued s sleepq runq) (hp : s.p_wchan p = none)
    (hn : ∀ k, p ∉ runq k) (chan : Chan) :
    ∃ s', enqueue s p chan = .ok s' ∧
      s'.p_wchan = Function.update s.p_wchan p (some chan) ∧ s'.p_stat = s.p_stat ∧
      s'.p_load = s.p_load ∧ s'.p_pri = s.p_pri ∧ s'.curproc = s.curproc ∧
      Queued s' (Function.update sleepq (HASH chan)
        (sleepq (HASH chan) ++ [(.item p, chan)])) runq := by
  generalize hh : HASH chan = h
  have hnew : InsQueue.Node.item p ∉ addrs (sleepq h) := hq.not_addr hp h
  -- The process is written to the place after the last one, also where that is the head.
  have hok : enqueue s p chan = .ok { s with
      p_wchan := Function.update s.p_wchan p (some chan)
      sq_tailp := Function.update s.sq_tailp h (some (.next (.item p)))
      links := (s.links.set (last (.head h) (sleepq h)) (some (.item p))).set
        (.next (.item p)) none } := by
    cases hl : sleepq h with
    | nil =>
      have hnone : s.links.head h = none := by
        have := hq.sleeps h
        rwa [hl] at this
      simp only [enqueue, hh, hnone, LinkedList.last_nil]
    | cons n l =>
      have hsome : s.links.head h = some n.1 := by
        have := hq.sleeps h
        rw [hl] at this
        exact this.1
      have htail : s.sq_tailp h = some (last (.head h) (n :: l)) := by
        rcases hq.tail h with ht | ⟨-, he⟩
        · rw [ht, hl]
        · rw [hl] at he; cases he
      simp only [enqueue, hh, hsome, htail, Option.map_some]
  have hval : ∀ a ∈ addrs (sleepq h),
      State.val { s with p_wchan := Function.update s.p_wchan p (some chan) } a = s.val a := by
    intro a ha
    obtain ⟨c, hc⟩ := LinkedList.mem_addrs.1 ha
    obtain ⟨b, rfl, -⟩ := hq.mem_item hc
    have hbp : b ≠ p := by
      rintro rfl
      exact hnew ha
    exact Function.update_of_ne hbp _ _
  refine ⟨_, hok, rfl, rfl, rfl, rfl, rfl, hq.setSleep chan rfl ?_ (fun h' hne => ?_)
    (fun a ha hm => ?_) ?_ (fun h' hne => Function.update_of_ne hne _ _) (fun a c hc => ?_)
    (fun b c => ?_) fun b k hb => ?_⟩
  · have hlst := (hq.sleeps h).congr (fun _ _ => rfl) hval
    have hins := (show Lst _ s.links.next (s.links.head h) (sleepq h ++ []) by
      rwa [List.append_nil]).insert (b := .item p) (y := chan) (by rwa [List.append_nil])
      (Function.update_self p (some chan) s.p_wchan)
    have hend : s.links.get (last (.head h) (sleepq h)) = none := by
      have := (LinkedList.lst_append (r := .head h)).1
        (show Lst _ s.links.next (s.links.get (.head h)) (sleepq h ++ []) by
          rw [List.append_nil]; exact hq.sleeps h)
      exact this.2
    rw [hend] at hins
    exact hins
  · rw [head_set_of_ne (by simp), head_set_of_ne]
    rcases last_cases (h := h) (sleepq h) with he | ⟨a, -, he⟩
    · rw [he]
      exact fun heq => hne (Ref.head.inj heq).symm
    · rw [he]
      simp
  · have hap : InsQueue.Node.item p ≠ a := by
      rintro rfl
      exact hm (by simp)
    rw [next_set_of_ne (by simpa using hap), next_set_of_ne]
    rcases last_cases (h := h) (sleepq h) with he | ⟨b, hb, he⟩
    · simp [he]
    · rw [he]
      intro heq
      obtain ⟨c, hc⟩ := LinkedList.mem_addrs.1 hb
      exact ha c (Ref.next.inj heq ▸ hc)
  · simp
  · rcases List.mem_append.1 hc with hc | hc
    · exact hq.hash h a c hc
    · obtain ⟨-, rfl⟩ := Prod.mk.inj (List.mem_singleton.1 hc)
      exact hh
  · have hmem : (InsQueue.Node.item b, c) ∈ sleepq h ++ [(InsQueue.Node.item p, chan)] ↔
        s.p_wchan b = some c ∧ HASH c = h ∨ b = p ∧ c = chan := by
      rw [List.mem_append, hq.mem_iff, List.mem_singleton, Prod.mk.injEq,
        InsQueue.Node.item.injEq]
    rw [hmem]
    by_cases hbp : b = p
    · subst hbp
      simp [hp, eq_comm]
    · rw [Function.update_of_ne hbp]
      tauto
  · have hbp : b ≠ p := by
      rintro rfl
      exact hn k hb
    rw [Function.update_of_ne hbp]
    exact hq.apart b k hb

/-- Where the pointer to a process stands, it leaves its sleep queue. -/
theorem Queued.dequeue_queued {pre rest : List (Node P × Chan)} (hq : Queued s sleepq runq)
    (hl : sleepq h = pre ++ (.item p, c) :: rest) :
    Queued (dequeue s h (last (.head h) pre) p) (Function.update sleepq h (pre ++ rest)) runq := by
  have hlst := hq.sleeps h
  rw [hl] at hlst
  have hnd := hlst.nodup
  have hmem : ∀ a c', (a, c') ∈ pre ++ rest → (a, c') ∈ sleepq h ∧ a ≠ .item p := by
    intro a c' hin
    have ha : a ∈ addrs (pre ++ rest) := LinkedList.mem_addrs.2 ⟨c', hin⟩
    refine ⟨hl ▸ ?_, ?_⟩
    · rcases List.mem_append.1 hin with hin | hin
      · exact List.mem_append_left _ hin
      · exact List.mem_append_right _ (List.mem_cons_of_mem _ hin)
    · rintro rfl
      have hperm : (addrs (pre ++ (InsQueue.Node.item p, c) :: rest)).Perm
          (InsQueue.Node.item p :: addrs (pre ++ rest)) :=
        (List.perm_middle (a := (InsQueue.Node.item p, c))).map Prod.fst
      exact (List.nodup_cons.1 (hperm.nodup_iff.1 hnd)).1 ha
  have hp : s.p_wchan p = some c ∧ HASH c = h :=
    hq.mem_iff.1 (hl ▸ List.mem_append_right _ List.mem_cons_self)
  have hpre : ∀ a ∈ addrs pre, ∃ c', (a, c') ∈ sleepq h := by
    intro a ha
    obtain ⟨c', hc'⟩ := LinkedList.mem_addrs.1 ha
    exact ⟨c', hl ▸ List.mem_append_left _ hc'⟩
  refine hq.setSleep c rfl ?_ (fun h' hne => ?_) (fun a ha _ => ?_) ?_
    (fun h' hne => ?_) (fun a c' hc' => ?_) (fun b c' => ?_) fun b k hb => ?_
  · refine (hlst.unlink).congr (fun _ _ => rfl) fun a ha => ?_
    obtain ⟨c', hc'⟩ := LinkedList.mem_addrs.1 ha
    obtain ⟨hin, hne⟩ := hmem a c' hc'
    obtain ⟨b, rfl, -⟩ := hq.mem_item hin
    have hbp : b ≠ p := fun heq => hne (by rw [heq])
    exact Function.update_of_ne hbp _ _
  · refine head_set_of_ne ?_ _
    rcases last_cases (h := h) pre with he | ⟨a, -, he⟩
    · rw [he]
      exact fun heq => hne (Ref.head.inj heq).symm
    · simp [he]
  · refine next_set_of_ne ?_ _
    rcases last_cases (h := h) pre with he | ⟨b, hb, he⟩
    · simp [he]
    · rw [he]
      intro heq
      obtain ⟨c', hc'⟩ := hpre b hb
      exact ha c' (Ref.next.inj heq ▸ hc')
  · have htail : s.sq_tailp h = some (last (.next (.item p)) rest) := by
      rcases hq.tail h with ht | ⟨-, he⟩
      · rw [ht, hl, LinkedList.last_append, LinkedList.last_cons]
      · rw [hl] at he
        exact absurd he (by simp)
    cases rest with
    | nil => simp [htail]
    | cons n rest =>
      -- The last link is that of another process.
      obtain ⟨b, hb, he⟩ : ∃ b ∈ addrs (n :: rest), last (.next n.1 : Place P) rest = .next b :=
        LinkedList.last_mem n.1 n.2 rest
      have hbp : b ≠ .item p := by
        obtain ⟨c', hc'⟩ := LinkedList.mem_addrs.1 hb
        exact (hmem b c' (List.mem_append_right _ hc')).2
      have hlast : last (.next (.item p) : Place P) (n :: rest) = .next b := he
      rw [hlast] at htail
      rw [if_neg (by simpa [htail] using hbp), htail, LinkedList.last_append]
      exact congrArg some he.symm
  · split_ifs
    · exact Function.update_of_ne hne _ _
    · rfl
  · exact hq.hash h a c' (hmem a c' hc').1
  · have hin : (InsQueue.Node.item b, c') ∈ pre ++ rest ↔
        s.p_wchan b = some c' ∧ HASH c' = h ∧ b ≠ p := by
      constructor
      · intro hin
        obtain ⟨hin, hne⟩ := hmem _ c' hin
        exact ⟨(hq.mem_iff.1 hin).1, (hq.mem_iff.1 hin).2, fun heq => hne (by rw [heq])⟩
      · rintro ⟨hb, hh, hne⟩
        have hin := hq.mem_iff.2 ⟨hb, hh⟩
        rw [hl] at hin
        simpa [hne] using hin
    rw [hin]
    by_cases hbp : b = p
    · subst hbp
      simp only [Function.update_self, hp.1, Option.some.injEq, ne_eq, not_true_eq_false,
        and_false, or_false, reduceCtorEq, false_iff, not_and, not_not]
      rintro rfl
      exact hp.2
    · rw [Function.update_of_ne hbp]
      tauto
  · have hbp : b ≠ p := by
      rintro rfl
      rw [hq.apart b k hb] at hp
      exact nomatch hp.1
    rw [Function.update_of_ne hbp]
    exact hq.apart b k hb

end Sleeps

end Synch
