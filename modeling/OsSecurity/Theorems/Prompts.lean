import OsSecurity.Lemmas.Session
import OsSecurity.Lib.Cut
import Mathlib.Data.List.Induction

/-!
# Answers and prompts

A call of `read_line` that does not come to the end of its line leaves the rest of it to the next call, which takes it for an answer
of its own. So the answers stay with their prompts exactly where every line but the last fits its buffer.
-/

namespace OsSecurity.Fms

open CLib

/-- What is left of a stream behind its first `k` lines. -/
def linesFrom (k : Nat) (stream : List UInt8) : List UInt8 := dropLine^[k] stream

/-- Line `k` of a stream. -/
def lineAt (k : Nat) (stream : List UInt8) : List UInt8 := lineOf (linesFrom k stream)

/-- Call `k` of `read_line` begins with line `k`, and returns that line cut to its buffer. -/
def Aligned (sizes : List Nat) (stdin : List UInt8) : Prop :=
  ∀ as size bs, sizes = as ++ size :: bs →
    Runs.final readStep stdin as = linesFrom as.length stdin ∧
      (readStep (Runs.final readStep stdin as) size).2.bytes = (lineAt as.length stdin).take (size - 1)

/-- No line has a NUL in the part that is read, and every line but the last one read fits its buffer. -/
def LinesFit (sizes : List Nat) (stdin : List UInt8) : Prop :=
  ∀ as size bs, sizes = as ++ size :: bs →
    0 ∉ (lineAt as.length stdin).take (size - 1) ∧ (bs ≠ [] → Fits size (linesFrom as.length stdin))

namespace PromptsAux

theorem linesFrom_succ (k : Nat) (stream : List UInt8) : linesFrom (k + 1) stream = dropLine (linesFrom k stream) :=
  Function.iterate_succ_apply' dropLine k stream

/-- A call that begins with a line returns it, cut, where no NUL is in the way. -/
theorem line_iff (size k : Nat) (stdin : List UInt8) :
    (readStep (linesFrom k stdin) size).2.bytes = (lineAt k stdin).take (size - 1) ↔ 0 ∉ (lineAt k stdin).take (size - 1) := by
  rw [readStep, readLine_line, lineAt]
  constructor
  · intro h
    rw [← h]
    exact zero_notMem_cstr _
  · exact cstr_of_noNul

/-- Lines that fit are read one a call. -/
theorem final_eq {sizes : List Nat} {stdin : List UInt8} (hsizes : ∀ size ∈ sizes, 2 ≤ size) (h : LinesFit sizes stdin)
    (as bs : List Nat) (hcut : sizes = as ++ bs) (hbs : bs ≠ []) : Runs.final readStep stdin as = linesFrom as.length stdin := by
  induction as using List.reverseRecOn generalizing bs with
  | nil => rfl
  | append_singleton as size ih =>
    rw [List.append_assoc, List.singleton_append] at hcut
    have hsize : 2 ≤ size := hsizes size (hcut ▸ List.mem_append_right as List.mem_cons_self)
    have hfits := (h as size bs hcut).2 hbs
    rw [Runs.final_concat, ih (size :: bs) hcut (List.cons_ne_nil _ _), List.length_append, List.length_singleton, linesFrom_succ]
    exact (readLine_rest_iff hsize _).mpr hfits

end PromptsAux

open PromptsAux

/-- For every `stdin` and every sequence of `read_line` calls with buffers of at least two bytes: each call begins with its own line and
returns it cut to the buffer if and only if no NUL is read, and every line before the last one read fits its buffer with its newline and
a NUL. -/
theorem aligned_iff (sizes : List Nat) (stdin : List UInt8) (hsizes : ∀ size ∈ sizes, 2 ≤ size) :
    Aligned sizes stdin ↔ LinesFit sizes stdin := by
  constructor
  · intro h as size bs hcut
    obtain ⟨hstart, hline⟩ := h as size bs hcut
    rw [hstart] at hline
    refine ⟨(line_iff size as.length stdin).mp hline, ?_⟩
    intro hbs
    cases bs with
    | nil => exact absurd rfl hbs
    | cons next bs =>
      have hnext := (h (as ++ [size]) next bs (by rw [hcut, List.append_assoc]; rfl)).1
      rw [Runs.final_concat, hstart, List.length_append, List.length_singleton, linesFrom_succ] at hnext
      exact (readLine_rest_iff (hsizes size (hcut ▸ List.mem_append_right as List.mem_cons_self)) _).mp hnext
  · intro h as size bs hcut
    have hstart := final_eq hsizes h as (size :: bs) hcut (List.cons_ne_nil _ _)
    refine ⟨hstart, ?_⟩
    rw [hstart]
    exact (line_iff size as.length stdin).mpr (h as size bs hcut).1

/-- What a run of the menus takes off `stdin` is what such a sequence of calls takes. -/
theorem play_reads {Obj : Type*} [DecidableEq Obj] (paths : Paths Obj) (envs : Nat → Env) (c : Console Obj) (n : Nat) :
    ∃ sizes, (∀ size ∈ sizes, 2 ≤ size) ∧ (play paths envs c n).stdin = Runs.final readStep c.stdin sizes := by
  induction n with
  | zero => exact ⟨[], by simp, rfl⟩
  | succ n ih =>
    obtain ⟨sizes, hsizes, hstdin⟩ := ih
    rw [play]
    by_cases halive : (play paths envs c n).Alive
    · obtain ⟨size, more, hsize, hmore, hrest⟩ := turn_reads paths (envs n) halive
      refine ⟨sizes ++ size :: more, ?_, ?_⟩
      · rw [List.forall_mem_append, List.forall_mem_cons]
        exact ⟨hsizes, hsize, hmore⟩
      · rw [hrest, hstdin, Runs.final, Runs.final, Runs.final, List.foldl_append]
    · rw [turn_of_not_alive paths _ halive]
      exact ⟨sizes, hsizes, hstdin⟩

/-- Two choices are asked for: the end of the first line is taken for the second, and it is `9`. -/
theorem not_aligned : ¬Aligned [choiceSize, choiceSize] (bytes "invalid9\n1\n") := by
  intro h
  have hsecond := (h [choiceSize] choiceSize [] rfl).2
  exact absurd hsecond (by decide)

/-- A choice and a username. -/
theorem aligned_iff_login : Aligned [choiceSize, maxUsername] (bytes "1\nalice\n") := by
  refine (aligned_iff _ _ (by decide)).mpr ?_
  intro as size bs hcut
  rcases as with _ | ⟨first, _ | ⟨second, as⟩⟩
  · obtain ⟨rfl, rfl⟩ := List.cons.inj hcut
    exact ⟨by decide, fun _ => .inl (by decide)⟩
  · obtain ⟨rfl, hrest⟩ := List.cons.inj hcut
    obtain ⟨rfl, rfl⟩ := List.cons.inj hrest
    exact ⟨by decide, fun h => absurd rfl h⟩
  · simp at hcut

end OsSecurity.Fms
