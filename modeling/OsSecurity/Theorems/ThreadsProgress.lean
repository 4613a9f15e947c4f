import OsSecurity.Theorems.Threads
import Mathlib.Algebra.Order.BigOperators.Group.Finset

/-!
# The threads of the server get on

A thread that has `store_lock` gives it back after a bounded number of its own steps, so nobody waits for it for ever; and each line
that comes costs its thread a bounded number of steps, so the threads of finitely many connections come to rest.
-/

namespace OsSecurity.Server

open CLib CriticalSection Interleaving ThreadsAux

/-- The connection of the thread is accepted. -/
def Threads.Accepted (s : Threads) (i : Nat) : Prop := ∀ h, s.thread i = .outside h → h.pc ≠ .backlog

/-- How many steps with the lock a call takes at most, but the one that gives it back. -/
abbrev maxInner : Nat := maxStore + 6

/-- How many steps a line costs at most. -/
abbrev maxTurn : Nat := maxInner + 4

namespace ThreadsAux

variable {s s' : Threads} {i : Nat} {keys : CharArray maxLine} {c : Conn} {h : Handler} {p p' : Conn × StorePc}

theorem rank_start (keys : CharArray maxLine) (a : StoreAccess) : (a.start keys).rank = maxInner := by
  cases a with
  | list => rfl
  | call c => cases c <;> rfl

/-- A step with the lock. -/
theorem inner_inside {store store' : Store} (h : threadInner store p = (store', .inside p')) :
    p'.1 = p.1 ∧ p'.2.rank < p.2.rank := by
  rcases goesOn store p.1 p.2 with ⟨s₁, pc₁, heq, -, hless⟩ | ⟨res, hres⟩
  · obtain ⟨-, hplace⟩ := Prod.mk.inj (heq.symm.trans h)
    obtain rfl := Place.inside.inj hplace
    exact ⟨rfl, hless⟩
  · obtain ⟨c, pc⟩ := p
    obtain rfl : pc = .unlock res := hres
    exact nomatch (Prod.mk.inj h).2

theorem inner_outside {store store' : Store} (heq : threadInner store p = (store', .outside h)) :
    h.conn = p.1 ∧ ∃ line, h.pc = .loop [line] := by
  have hfinish := finishes.release store p store' h heq
  rw [threadFinish] at hfinish
  obtain ⟨-, rfl⟩ := Prod.mk.inj hfinish
  exact ⟨rfl, _, rfl⟩

/-- What a thread does without the lock. -/
theorem next_acquire (hnext : threadNext h keys = some (.acquire p)) : p.1 = h.conn ∧ p.2.rank = maxInner ∧ ∃ a, h.pc = .lock a := by
  obtain ⟨c, pc⟩ := h
  cases pc with
  | backlog => cases hnext
  | loop lines =>
    cases lines with
    | nil =>
      simp only [threadNext] at hnext
      split at hnext
      · obtain ⟨n, -, hn⟩ := Option.map_eq_some_iff.mp hnext
        cases hn
      · cases hnext
    | cons line lines => cases hnext
  | lock access =>
    obtain rfl := Next.acquire.inj (Option.some.inj hnext)
    exact ⟨rfl, rank_start keys access, access, rfl⟩

/-! ## The steps that are still to come -/

/-- How many steps the lines that have come, and the end, cost at most. -/
def workOfConn (c : Conn) : Nat := if c.isOpen then maxTurn * (c.input.bytes.length + 1) else 0

/-- How many steps a thread has still to take at most. -/
def workOf : Place Handler (Conn × StorePc) → Nat
  | .outside h =>
    workOfConn h.conn +
      match h.pc with
      | .backlog => 1
      | .loop lines => lines.length
      | .lock _ => maxInner + 3
  | .inside p => workOfConn p.1 + p.2.rank + 2

/-- What the receipt of a line costs. -/
theorem workOf_received {n : Received} (hopen : c.isOpen = true) (hn : recvLine maxLine c.input = some n) :
    workOf (.outside (threadReceived c n)) < workOfConn c := by
  have hkeeps := keeps_received c n
  have hbefore : workOfConn c = maxTurn * (c.input.bytes.length + 1) := if_pos hopen
  by_cases hpos : 0 < n.ret
  · have hless : n.rest.bytes.length < c.input.bytes.length := FramingAux.recvLoop_shorter hn hpos
    have hafter : workOfConn (threadReceived c n).conn ≤ maxTurn * (n.rest.bytes.length + 1) := by
      rw [workOfConn, show (threadReceived c n).conn.input = n.rest from hkeeps.input]
      split
      · exact Nat.le_refl _
      · exact Nat.zero_le _
    have hmul : maxTurn * (n.rest.bytes.length + 1) ≤ maxTurn * c.input.bytes.length := Nat.mul_le_mul_left _ hless
    rw [workOf, hbefore, Nat.mul_succ]
    cases hpc : (threadReceived c n).pc with
    | backlog => exact absurd hpc hkeeps.accepted
    | loop lines =>
      have hlines := hkeeps.lines lines hpc
      dsimp only
      simp only [maxTurn, maxInner, maxStore] at *
      omega
    | lock access =>
      dsimp only
      simp only [maxTurn, maxInner, maxStore] at *
      omega
  · -- the loop ends, with one line at most
    have hsends : workOf (.outside (threadReceived c n)) ≤ 1 := by
      rw [threadReceived]
      dsimp only
      split
      · simp [Handler.sends, workOf, workOfConn]
      split
      · simp [Handler.sends, workOf, workOfConn]
      · omega
    rw [hbefore, Nat.mul_succ]
    simp only [maxTurn, maxInner, maxStore] at *
    omega

/-- A move makes it smaller. -/
theorem workOf_move {a b : Place Handler (Conn × StorePc)} (hmove : Moves threadProgram keys a b) : workOf b < workOf a := by
  cases hmove with
  | @goto h h' hnext =>
    obtain ⟨c, pc⟩ := h
    cases pc with
    | backlog =>
      obtain rfl := Next.goto.inj (Option.some.inj hnext)
      exact Nat.lt_succ_self _
    | lock access => cases hnext
    | loop lines =>
      cases lines with
      | cons line lines =>
        obtain rfl := Next.goto.inj (Option.some.inj hnext)
        exact Nat.lt_succ_self _
      | nil =>
        simp only [threadProgram, threadNext] at hnext
        split at hnext
        · rename_i hopen
          obtain ⟨n, hn, hgoto⟩ := Option.map_eq_some_iff.mp hnext
          obtain rfl := Next.goto.inj hgoto
          exact workOf_received hopen hn
        · cases hnext
  | acquire hnext =>
    obtain ⟨hconn, hrank, access, hpc⟩ := next_acquire hnext
    rw [workOf, workOf, hconn, hrank, hpc]
    dsimp only
    omega
  | inner hinner =>
    obtain ⟨hconn, hless⟩ := inner_inside hinner
    rw [workOf, workOf, hconn]
    omega
  | release hinner =>
    obtain ⟨hconn, line, hpc⟩ := inner_outside hinner
    rw [workOf, workOf, hconn, hpc]
    simp only [List.length_singleton]
    omega

/-- The steps of the first `n` threads take no more than their work. -/
theorem length_add_work {n : Nat} {as : List (Nat × CharArray maxLine)} (hn : ∀ a ∈ as, a.1 < n) (h : run threadsStep s as = some s') :
    as.length + ∑ i ∈ Finset.range n, workOf (s'.thread i) ≤ ∑ i ∈ Finset.range n, workOf (s.thread i) := by
  induction as generalizing s with
  | nil =>
    obtain rfl := Option.some.inj h
    exact Nat.le_of_eq (Nat.zero_add _)
  | cons a as ih =>
    obtain ⟨s₁, hstep, hrest⟩ := Option.bind_eq_some_iff.mp h
    have hlater := ih (fun b hb => hn b (List.mem_cons_of_mem a hb)) hrest
    obtain ⟨hmoves, hothers⟩ := moves_of_step hstep
    have hless : ∑ i ∈ Finset.range n, workOf (s₁.thread i) < ∑ i ∈ Finset.range n, workOf (s.thread i) := by
      refine Finset.sum_lt_sum (fun i _ => ?_) ⟨a.1, Finset.mem_range.mpr (hn a (List.mem_cons_self ..)), workOf_move hmoves⟩
      by_cases hi : i = a.1
      · exact hi ▸ Nat.le_of_lt (workOf_move hmoves)
      · exact Nat.le_of_eq (congrArg workOf (hothers i hi))
    rw [List.length_cons]
    omega

/-- With the lock, no thread is further from the end of its call than at its beginning. -/
theorem rank_le {inputs : Nat → Stream} (h : Interleaving.Reachable threadsStep (Threads.init inputs) s) (hplace : s.thread i = .inside p) :
    p.2.rank ≤ maxInner := by
  refine forall_thread_of_reachable (Q := fun a => ∀ p, a = .inside p → p.2.rank ≤ maxInner) ?_ ?_ h i p hplace
  rotate_left
  · intro j q hq
    exact nomatch hq
  rintro keys a b ha hmove q rfl
  cases hmove with
  | acquire hnext => exact Nat.le_of_eq (next_acquire hnext).2.1
  | inner hinner => exact (Nat.le_of_lt (inner_inside hinner).2).trans (ha _ rfl)

/-- Without the lock a thread has a step that does not depend on the others, but for the one that takes the lock. -/
theorem next_eq_none (hnext : ∀ keys, threadNext h keys = none) :
    h.pc = .loop [] ∧ (h.conn.isOpen = true → recvLine maxLine h.conn.input = none) := by
  obtain ⟨c, pc⟩ := h
  have hnone := hnext (CharArray.zero _)
  cases pc with
  | backlog => exact nomatch hnone
  | lock access => exact nomatch hnone
  | loop lines =>
    cases lines with
    | cons line lines => exact nomatch hnone
    | nil =>
      refine ⟨rfl, fun hopen => ?_⟩
      simpa [threadNext, show c.isOpen = true from hopen] using hnone

end ThreadsAux

/-- In every state that the threads can reach, the lock is held by the thread that is in a store function and by no other; this thread
can go on until it gives it back, after at most 135 steps, and whatever steps the others take between its own, it has given it back once
it has taken 135; and where no accepted thread has a step, none waits for the lock: each is at the head of its loop, and its connection
is closed or no line has come. The steps of the first `n` threads are at most 138 for each byte that their peers have sent and 139 more
for each of them. -/
theorem threads_progress {inputs : Nat → Stream} {as : List (Nat × CharArray maxLine)} {s : Threads}
    (h : run threadsStep (Threads.init inputs) as = some s) :
    (∀ i, s.owner = some i ↔ ∃ p, s.thread i = .inside p) ∧
      (∀ i p keys, s.thread i = .inside p →
        ∃ k ≤ 135, ∃ s', run threadsStep s (List.replicate k (i, keys)) = some s' ∧ s'.owner = none) ∧
      (∀ i p bs s', s.thread i = .inside p → run threadsStep s bs = some s' → 135 ≤ bs.countP (fun a => a.1 == i) →
        ∃ before after s₁, bs = before ++ after ∧ run threadsStep s before = some s₁ ∧ s₁.owner = none) ∧
      ((∀ i keys, s.Accepted i → threadsStep s (i, keys) = none) → s.owner = none ∧ ∀ i, s.AtRest i ∧
        (s.Accepted i → (s.conn i).isOpen = true → recvLine maxLine (s.conn i).input = none)) ∧
      ∀ n, (∀ a ∈ as, a.1 < n) → as.length ≤ ∑ i ∈ Finset.range n, (138 * ((inputs i).bytes.length + 1) + 1) := by
  have hexcl : Exclusive s := (exclusive_init inputs).reachable ⟨as, h⟩
  refine ⟨hexcl, ?_, ?_, ?_, ?_⟩
  · intro i p keys hplace
    obtain ⟨k, hk, s', hrun, hfree, -⟩ := exists_release finishes hexcl hplace keys
    have hrank := rank_le ⟨as, h⟩ hplace
    exact ⟨k, hk.trans (Nat.succ_le_succ hrank), s', hrun, hfree⟩
  · intro i p bs s' hplace hrun hcount
    have hrank : p.2.rank ≤ maxInner := rank_le ⟨as, h⟩ hplace
    exact released_of_count finishes hplace hrun (Nat.lt_of_lt_of_le (Nat.lt_succ_of_le hrank) hcount)
  · intro hstuck
    have howner : ∀ i, s.owner = some i → s.Accepted i := by
      intro i hi h hh
      obtain ⟨p, hp⟩ := (hexcl i).mp hi
      exact nomatch hp.symm.trans hh
    have : Nonempty (CharArray maxLine) := ⟨CharArray.zero _⟩
    obtain ⟨hfree, hnext⟩ := next_eq_none_of_stuck hexcl s.Accepted howner hstuck
    refine ⟨hfree, fun i => ?_⟩
    obtain ⟨h, hplace⟩ := hexcl.outside (u := i) (by rw [hfree]; exact nofun)
    by_cases hbacklog : h.pc = .backlog
    · exact ⟨⟨h, hplace, .inl hbacklog⟩, fun haccepted => absurd hbacklog (haccepted h hplace)⟩
    · obtain ⟨h', hplace', hnone⟩ := hnext i (fun h' hh' => Place.outside.inj (hplace.symm.trans hh') ▸ hbacklog)
      obtain rfl := Place.outside.inj (hplace.symm.trans hplace')
      obtain ⟨hpc, hwaits⟩ := next_eq_none hnone
      exact ⟨⟨h, hplace, .inr hpc⟩, fun _ => by rwa [conn_outside hplace]⟩
  · intro n hn
    have hlength := length_add_work hn h
    refine (Nat.le_of_add_right_le hlength).trans (Nat.le_of_eq (Finset.sum_congr rfl (fun i _ => rfl)))

/-- In particular where one thread is in `store_put`: it has given the lock back before the other one has gone through `store_get`. -/
theorem threads_progress_stored : ∃ s : Threads, run threadsStep (Threads.init storing) untilLock = some s ∧
    (∃ p, s.thread 0 = .inside p) ∧
      ∃ before after s₁, throughStore = before ++ after ∧ run threadsStep s before = some s₁ ∧ s₁.owner = none := by
  obtain ⟨s, h, hs⟩ := Option.map_eq_some_iff.mp untilLock_owner
  have hrun : (run threadsStep (Threads.init storing) (untilLock ++ throughStore)).isSome = true := by decide +kernel
  rw [run_append h] at hrun
  obtain ⟨s', hrun⟩ := Option.isSome_iff_exists.mp hrun
  obtain ⟨hlock, -, hreleased, -⟩ := threads_progress h
  obtain ⟨p, hp⟩ := (hlock 0).mp hs
  exact ⟨s, h, ⟨p, hp⟩, hreleased 0 p throughStore s' hp hrun (by decide +kernel)⟩

end OsSecurity.Server
