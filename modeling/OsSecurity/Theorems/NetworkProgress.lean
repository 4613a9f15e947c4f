import OsSecurity.Lemmas.Network
import OsSecurity.Lib.Interleaving
import Mathlib.Algebra.Order.BigOperators.Group.Finset

/-!
# Clients and server come to an end

A client that waits for a line has one coming: its own line is still on its way, or what the server answered is, or the connection is
closed. And every step is paid for by the input of its client. So no order of the steps leaves a client waiting for ever.
-/

namespace OsSecurity.Server

open CLib Interleaving

namespace NetworkAux

variable {n : Nat} {s s' : Network} {a : Actor}

/-- What one step changes: one link, by a step of its client or by a turn of the server. -/
inductive NetworkMoved (n : Nat) (s : Network) : Network → Prop
  | client (i : Nat) (l : Link) (hi : i < n) (hl : (s.link i).clientStep = some l) :
      NetworkMoved n s { s with link := Function.update s.link i l }
  | server (i : Nat) (keys : CharArray maxLine) (store : Store) (l : Link) (hi : i < n)
      (hl : (s.link i).serverStep s.store keys = some (store, l)) :
      NetworkMoved n s { store := store, link := Function.update s.link i l }

/-- Whoever takes a step, one link moves. -/
theorem networkStep_moved (h : networkStep n s a = some s') : NetworkMoved n s s' := by
  cases a with
  | client i =>
    simp only [networkStep] at h
    split at h
    · rename_i hi
      obtain ⟨l, hl, rfl⟩ := Option.map_eq_some_iff.mp h
      exact .client i l hi hl
    · cases h
  | server i keys =>
    simp only [networkStep] at h
    split at h
    · rename_i hi
      obtain ⟨⟨store, l⟩, hl, rfl⟩ := Option.map_eq_some_iff.mp h
      exact .server i keys store l hi hl
    · cases h

/-- Every link is in step. -/
def AllLinked (s : Network) : Prop := ∀ i, ∃ lines, Linked (s.link i) lines

/-- Before the first step no client has sent a line. -/
theorem allLinked_init (stdins : Nat → List UInt8) : AllLinked (Network.init stdins) := fun i => ⟨[], linked_start (stdins i)⟩

/-- The links when one of them moves. -/
theorem allLinked_update {link : Nat → Link} (h : ∀ i, ∃ lines, Linked (link i) lines) {i : Nat} {l : Link}
    (hl : ∃ lines, Linked l lines) : ∀ j, ∃ lines, Linked (Function.update link i l j) lines := by
  intro j
  by_cases hj : j = i
  · subst hj
    rwa [Function.update_self]
  · rw [Function.update_of_ne hj]
    exact h j

/-- A step keeps every link in step. -/
theorem allLinked_step (hs : AllLinked s) (h : networkStep n s a = some s') : AllLinked s' := by
  cases networkStep_moved h with
  | client i l hi hl =>
    obtain ⟨lines, hlinked⟩ := hs i
    exact allLinked_update hs (linked_client hlinked hl)
  | server i keys store l hi hl =>
    obtain ⟨lines, hlinked⟩ := hs i
    exact allLinked_update hs (linked_server hlinked hl).1

/-- The work of the first `n` clients. -/
def work (n : Nat) (s : Network) : Nat := ∑ i ∈ Finset.range n, (s.link i).work

/-- One link with less work, and the others as they were. -/
theorem work_update {link : Nat → Link} {i : Nat} (hi : i < n) {l : Link} (hl : l.work < (link i).work) :
    ∑ j ∈ Finset.range n, (Function.update link i l j).work < ∑ j ∈ Finset.range n, (link j).work := by
  refine Finset.sum_lt_sum (fun j _ => ?_) ⟨i, Finset.mem_range.mpr hi, by rwa [Function.update_self]⟩
  by_cases hj : j = i
  · subst hj
    rw [Function.update_self]
    exact Nat.le_of_lt hl
  · rw [Function.update_of_ne hj]

/-- So each step of the network leaves less work. -/
theorem work_step (hs : AllLinked s) (h : networkStep n s a = some s') : work n s' < work n s := by
  cases networkStep_moved h with
  | client i l hi hl => exact work_update hi (work_client hl)
  | server i keys store l hi hl =>
    obtain ⟨lines, hlinked⟩ := hs i
    exact work_update hi (linked_server hlinked hl).2

/-- Where nobody has a step, all clients have left and all connections are closed. -/
theorem done_of_stuck (hs : AllLinked s) (hstuck : Stuck (networkStep n) s) {i : Nat} (hi : i < n) :
    (s.link i).session.phase = .done ∧ (s.link i).conn.isOpen = false := by
  obtain ⟨lines, hlinked⟩ := hs i
  -- the turn of a connection takes place or not whatever the store
  have hserver : ∀ store keys, (s.link i).serverStep store keys = none := by
    intro store keys
    have hnone := hstuck (.server i keys)
    simp only [networkStep, if_pos hi, Option.map_eq_none_iff, Link.serverStep] at hnone ⊢
    split
    · rename_i hopen
      rw [if_pos hopen, Option.map_eq_none_iff] at hnone
      rw [hnone]
      rfl
    · rfl
  have hclient := hstuck (.client i)
  simp only [networkStep, if_pos hi, Option.map_eq_none_iff] at hclient
  exact linked_stuck hlinked hclient hserver

end NetworkAux

open NetworkAux

/-- For all inputs of `n` clients: every run of clients and server, in any order of their steps, has at most three steps for each byte
of input and two more for each client; it can be taken on to a state without a step; and wherever there is no step, every client has
left its loop and the server has closed its connection. -/
theorem network_completes {n : Nat} {stdins : Nat → List UInt8} {as : List Actor} {s : Network}
    (h : run (networkStep n) (Network.init stdins) as = some s) :
    as.length ≤ ∑ i ∈ Finset.range n, (3 * (stdins i).length + 2) ∧
      (∃ s', Interleaving.Reachable (networkStep n) s s' ∧ Stuck (networkStep n) s') ∧
      (Stuck (networkStep n) s → ∀ i < n, (s.link i).session.phase = .done ∧ (s.link i).conn.isOpen = false) := by
  have hstep : ∀ s a s', AllLinked s → networkStep n s a = some s' → AllLinked s' := fun _ _ _ => allLinked_step
  have hless : ∀ s a s', AllLinked s → networkStep n s a = some s' → work n s' < work n s := fun _ _ _ => work_step
  have hs : AllLinked s := run_invariant hstep (allLinked_init stdins) h
  refine ⟨?_, exists_stuck hstep hless hs, fun hstuck i hi => done_of_stuck hs hstuck hi⟩
  have hlength := length_add_le hstep hless (allLinked_init stdins) h
  exact (Nat.le_add_right _ _).trans hlength

/-- One client, which has sent a line. -/
theorem network_completes_asked : ∃ s s', Interleaving.Reachable (networkStep 1) s s' ∧ Stuck (networkStep 1) s' := by
  obtain ⟨s, hs⟩ := Option.isSome_iff_exists.mp
    (show (run (networkStep 1) (Network.init (fun _ => bytes "LIST\n")) [.client 0]).isSome = true by decide +kernel)
  obtain ⟨s', hreach, hstuck⟩ := (network_completes hs).2.1
  exact ⟨s, s', hreach, hstuck⟩

end OsSecurity.Server
