import Mathlib.Tactic.Common

/-!
# Loops that can break

A loop over a list. Its body takes the variables and an element, and goes on with new variables or leaves the loop with them. An
invariant says which elements the loop has passed; what breaks the loop need not keep it.
-/

namespace Loops

variable {S A : Type*} (body : S → A → ForInStep S)

/-- The variables behind the loop. -/
def final : S → List A → S
  | s, [] => s
  | s, a :: as =>
    match body s a with
    | .yield s' => final s' as
    | .done s' => s'

/-- The variables at the start of each iteration. -/
def heads : S → List A → List S
  | _, [] => []
  | s, a :: as =>
    s ::
      match body s a with
      | .yield s' => heads s' as
      | .done _ => []

/-- A body that goes on keeps an invariant, and one that breaks brings about what is to hold behind the loop. -/
def Keeps (I Q : S → Prop) : ForInStep S → Prop
  | .yield s => I s
  | .done s => Q s

variable {body} {s : S} {as : List A} {I : List A → S → Prop} {Q : S → Prop}

theorem final_of_keeps {passed rest : List A}
    (hbody : ∀ passed a rest s, as = passed ++ a :: rest → I passed s → Keeps (I (passed ++ [a])) Q (body s a))
    (hend : ∀ s, I as s → Q s) (has : as = passed ++ rest) (hs : I passed s) : Q (final body s rest) := by
  induction rest generalizing s passed with
  | nil =>
    rw [List.append_nil] at has
    subst has
    exact hend s hs
  | cons a rest ih =>
    have hkeeps := hbody passed a rest s has hs
    rw [final]
    cases hstep : body s a with
    | yield s' =>
      rw [hstep] at hkeeps
      exact ih (has.trans (List.append_cons passed a rest)) hkeeps
    | done s' =>
      rw [hstep] at hkeeps
      exact hkeeps

/-- What holds behind a loop. -/
theorem final_rule (hbody : ∀ passed a rest s, as = passed ++ a :: rest → I passed s → Keeps (I (passed ++ [a])) Q (body s a))
    (hend : ∀ s, I as s → Q s) (hs : I [] s) : Q (final body s as) := final_of_keeps hbody hend rfl hs

theorem heads_of_keeps {passed rest : List A}
    (hbody : ∀ passed a rest s, as = passed ++ a :: rest → I passed s → Keeps (I (passed ++ [a])) Q (body s a))
    (has : as = passed ++ rest) (hs : I passed s) : ∀ s' ∈ heads body s rest, ∃ passed, I passed s' := by
  induction rest generalizing s passed with
  | nil => exact fun _ h => nomatch h
  | cons a rest ih =>
    have hkeeps := hbody passed a rest s has hs
    intro s' hs'
    rw [heads] at hs'
    rcases List.mem_cons.mp hs' with rfl | hlater
    · exact ⟨passed, hs⟩
    · cases hstep : body s a with
      | yield t =>
        rw [hstep] at hkeeps hlater
        exact ih (has.trans (List.append_cons passed a rest)) hkeeps s' hlater
      | done t =>
        rw [hstep] at hlater
        nomatch hlater

/-- The invariant holds at the start of each iteration. -/
theorem heads_rule (hbody : ∀ passed a rest s, as = passed ++ a :: rest → I passed s → Keeps (I (passed ++ [a])) Q (body s a))
    (hs : I [] s) : ∀ s' ∈ heads body s as, ∃ passed, I passed s' := heads_of_keeps hbody rfl hs

end Loops
