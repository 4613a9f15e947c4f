import OsSecurity.Lemmas.Session
import Mathlib.Data.Nat.Find

/-!
# The end of the input

A turn that has something to read takes at least a byte off `stdin`; at the end of it every choice is empty, and the loops go round
without end. So the program returns exactly where it is told to before its input is used up.
-/

namespace OsSecurity.Fms

open CLib

namespace TerminationAux

variable {Obj : Type*} [DecidableEq Obj] (paths : Paths Obj) (envs : Nat → Env) (c : Console Obj)

/-- A program that has stopped stays so. -/
theorem play_of_not_alive {m : Nat} (h : ¬(play paths envs c m).Alive) (n : Nat) (hmn : m ≤ n) :
    play paths envs c n = play paths envs c m := by
  induction n, hmn using Nat.le_induction with
  | base => rfl
  | succ n hmn ih => rw [play, ih, turn_of_not_alive paths _ h]

/-- A program at the end of its input goes on for ever. -/
theorem play_at_end {m : Nat} (h : (play paths envs c m).Alive) (hend : (play paths envs c m).stdin = []) (n : Nat) (hmn : m ≤ n) :
    play paths envs c n = play paths envs c m := by
  induction n, hmn using Nat.le_induction with
  | base => rfl
  | succ n hmn ih => rw [play, ih, turn_at_end paths _ h hend]

/-- While no turn begins at the end of the input, each takes something off it. -/
theorem play_length_le (h : ∀ n, (play paths envs c n).Alive → (play paths envs c n).stdin ≠ []) (n : Nat)
    (halive : (play paths envs c n).Alive) : (play paths envs c n).stdin.length + n ≤ c.stdin.length := by
  induction n with
  | zero => exact Nat.le_refl _
  | succ n ih =>
    have hprev : (play paths envs c n).Alive := by
      by_contra hstopped
      rw [play_of_not_alive paths envs c hstopped (n + 1) (Nat.le_succ n)] at halive
      exact hstopped halive
    have hlt := (turn_reads paths (envs n) hprev).length_lt (h n hprev)
    have hle := ih hprev
    rw [play]
    omega

/-- Without any input the program stays where it begins. -/
theorem play_empty (d : Disk Obj) (n : Nat) : (play paths envs (.start [] d) n).screen = .login := by
  have halive : (play paths envs (.start [] d) 0).Alive := ⟨by simp [play, Console.start], by simp [play, Console.start]⟩
  rw [play_at_end paths envs _ halive rfl n (Nat.zero_le n)]
  rfl

end TerminationAux

open TerminationAux

/-- For every input, all files there are, the databases among them, and whatever the system does in each turn: `main` returns if and only
if no turn begins at the end of `stdin`, and none with a file to transform that cannot be opened for writing. -/
theorem returns_iff {Obj : Type*} [DecidableEq Obj] (paths : Paths Obj) (envs : Nat → Env) (stdin : List UInt8)
    (d : Disk Obj) :
    (∃ n, (play paths envs (.start stdin d) n).screen = .returned) ↔
      ∀ n, (play paths envs (.start stdin d) n).Alive →
        (play paths envs (.start stdin d) n).stdin ≠ [] ∧ ¬(play paths envs (.start stdin d) n).Dies paths (envs n).io := by
  generalize hc : (Console.start stdin d : Console Obj) = c
  constructor
  · rintro ⟨n, hn⟩ m halive
    have hstopped : ¬(play paths envs c n).Alive := fun h => h.1 hn
    constructor
    · intro hend
      rcases Nat.le_total m n with hmn | hnm
      · exact hstopped (play_at_end paths envs c halive hend n hmn ▸ halive)
      · exact hstopped (play_of_not_alive paths envs c hstopped m hnm ▸ halive)
    · intro hdies
      have hdied := (turn_died_iff paths (envs m) halive).mpr hdies
      have hdead : ¬(play paths envs c (m + 1)).Alive := fun h => h.2 hdied
      rcases Nat.le_total (m + 1) n with hmn | hnm
      · rw [play_of_not_alive paths envs c hdead n hmn] at hn
        exact absurd (hn.symm.trans hdied) (by decide)
      · rw [← play_of_not_alive paths envs c hstopped (m + 1) hnm] at hn
        exact absurd (hn.symm.trans hdied) (by decide)
  · intro h
    -- the input is not long enough for a turn more than it has bytes
    have hstops : ¬(play paths envs c (c.stdin.length + 1)).Alive := by
      intro halive
      have hle := play_length_le paths envs c (fun n hn => (h n hn).1) _ halive
      omega
    have hex : ∃ n, ¬(play paths envs c n).Alive := ⟨_, hstops⟩
    obtain ⟨n, hn, hfirst⟩ : ∃ n, ¬(play paths envs c n).Alive ∧ ∀ m < n, (play paths envs c m).Alive := by
      classical
      exact ⟨Nat.find hex, Nat.find_spec hex, fun m hm => not_not.mp (Nat.find_min hex hm)⟩
    refine ⟨n, ?_⟩
    cases n with
    | zero =>
      subst hc
      exact absurd ⟨by simp [play, Console.start], by simp [play, Console.start]⟩ hn
    | succ n =>
      by_contra hreturned
      have halive := hfirst n (Nat.lt_succ_self n)
      exact hn ⟨hreturned, fun hdied => (h n halive).2 ((turn_died_iff paths (envs n) halive).mp hdied)⟩

/-- The choice `3` is read while there is input. -/
example : (play (processPaths [bytes "srv"]) (fun _ => { io := Io.allOk [], salt := CharArray.zero saltLen })
    (.start (bytes "2\nann\npw\nstaff\n3\n") Disk.empty) 2).screen = .returned := by
  decide +kernel

/-- On an empty input the first choice is asked for again and again. -/
theorem never_returns :
    ¬∃ n, (play (processPaths [bytes "srv"]) (fun _ => { io := Io.allOk [], salt := CharArray.zero saltLen })
      (.start [] Disk.empty) n).screen = .returned := by
  rintro ⟨n, hn⟩
  rw [play_empty] at hn
  exact absurd hn (by decide)

end OsSecurity.Fms
