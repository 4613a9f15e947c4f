import Mathlib.Data.List.Basic
import Mathlib.Data.List.Induction

/-!
# Journals

A journal is a list of events, the earliest first. What the events make of a state is a fold; when some events set the state and all
others leave it alone, the state is what the latest of those set it to. A reader is a partial automaton that runs over a journal.
-/

namespace Journal

variable {E S : Type*}

/-- The latest event of a journal that satisfies a predicate, with the events after it. -/
def latest (p : E → Bool) : List E → Option (E × List E)
  | [] => none
  | e :: log => (latest p log).or (if p e then some (e, log) else none)

/-- The last entry is the latest one if it is of the kind. -/
theorem latest_concat_of_pos {p : E → Bool} {e : E} (h : p e = true) (log : List E) : latest p (log ++ [e]) = some (e, []) := by
  induction log with
  | nil => rw [List.nil_append, latest, latest, if_pos h, Option.none_or]
  | cons x log ih => rw [List.cons_append, latest, ih, Option.some_or]

/-- The last entry comes behind the latest one if it is not of the kind. -/
theorem latest_concat_of_neg {p : E → Bool} {e : E} (h : ¬ p e = true) (log : List E) :
    latest p (log ++ [e]) = (latest p log).map (fun x => (x.1, x.2 ++ [e])) := by
  induction log with
  | nil =>
    show (latest p []).or (if p e then some (e, []) else none) = none
    rw [if_neg h]
    rfl
  | cons x log ih =>
    rw [List.cons_append, latest, ih, latest]
    cases latest p log with
    | some y => rfl
    | none =>
      rw [Option.map_none, Option.none_or, Option.none_or]
      split <;> rfl

/-- No event of a journal without a latest one satisfies the predicate. -/
theorem of_latest_eq_none {p : E → Bool} {log : List E} (h : latest p log = none) : ∀ e ∈ log, ¬ p e = true := by
  induction log with
  | nil => simp
  | cons x log ih =>
    rw [latest, Option.or_eq_none_iff] at h
    intro e he
    rcases List.mem_cons.mp he with rfl | he
    · intro hp
      rw [if_pos hp] at h
      nomatch h.2
    · exact ih h.1 e he

/-- The latest event satisfies the predicate, and none after it does. -/
theorem of_latest_eq_some {p : E → Bool} {log : List E} {e : E} {after : List E} (h : latest p log = some (e, after)) :
    (∃ before, log = before ++ e :: after) ∧ p e = true ∧ ∀ x ∈ after, ¬ p x = true := by
  induction log with
  | nil => nomatch h
  | cons x log ih =>
    rw [latest] at h
    cases hlog : latest p log with
    | some y =>
      rw [hlog, Option.some_or] at h
      obtain ⟨⟨before, rfl⟩, hp, hafter⟩ := ih (hlog.trans h)
      exact ⟨⟨x :: before, rfl⟩, hp, hafter⟩
    | none =>
      rw [hlog, Option.none_or] at h
      split at h
      · rename_i hp
        cases h
        exact ⟨⟨[], rfl⟩, hp, of_latest_eq_none hlog⟩
      · nomatch h

/-- The last writer wins. -/
theorem foldl_latest {p : E → Bool} {apply : S → E → S} {g : E → S} (hset : ∀ s e, p e = true → apply s e = g e)
    (hkeep : ∀ s e, ¬ p e = true → apply s e = s) (s : S) (log : List E) :
    log.foldl apply s = ((latest p log).map (fun x => g x.1)).getD s := by
  induction log using List.reverseRecOn with
  | nil => rfl
  | append_singleton log e ih =>
    rw [List.foldl_concat, ih]
    by_cases hp : p e = true
    · rw [hset _ e hp, latest_concat_of_pos hp]
      rfl
    · rw [hkeep _ e hp, latest_concat_of_neg hp, Option.map_map]
      rfl

/-! ## Readers -/

section

variable {δ : S → E → Option S}

/-- What a reader makes of a journal: each event takes it from one state to the next, or is one it does not accept. -/
def read (δ : S → E → Option S) (s : S) (log : List E) : Option S := log.foldlM δ s

/-- A log that goes on is read on. -/
theorem read_append (s : S) (log log' : List E) : read δ s (log ++ log') = (read δ s log).bind (fun t => read δ t log') :=
  List.foldlM_append

/-- The last entry is read last. -/
theorem read_concat (s : S) (log : List E) (e : E) : read δ s (log ++ [e]) = (read δ s log).bind (fun t => δ t e) := by
  rw [read_append]
  congr 1
  funext t
  exact bind_pure _

/-- The reader has read the events before any of them. -/
theorem read_of_append_cons {s t : S} {before after : List E} {e : E} (h : read δ s (before ++ e :: after) = some t) :
    ∃ u v, read δ s before = some u ∧ δ u e = some v ∧ read δ v after = some t := by
  rw [read_append, Option.bind_eq_some_iff] at h
  obtain ⟨u, hbefore, hrest⟩ := h
  obtain ⟨v, he, hafter⟩ := Option.bind_eq_some_iff.mp hrest
  exact ⟨u, v, hbefore, he, hafter⟩

/-- A reader that is in a set of states it did not begin in came into it by some event, and has stayed there since. -/
theorem last_entry {P : S → Prop} {s t : S} {log : List E} (h : read δ s log = some t) (hs : ¬P s) (ht : P t) :
    ∃ before e after u v, log = before ++ e :: after ∧ ¬P u ∧ P v ∧ δ u e = some v ∧
      ∀ first x rest, after = first ++ x :: rest → ∃ a b, P a ∧ P b ∧ δ a x = some b := by
  induction log using List.reverseRecOn generalizing t with
  | nil => exact absurd ((Option.some.inj h) ▸ ht) hs
  | append_singleton log e ih =>
    rw [read_concat, Option.bind_eq_some_iff] at h
    obtain ⟨u, hlog, he⟩ := h
    by_cases hu : P u
    · obtain ⟨before, e', after, u', v, rfl, hu', hv, he', hafter⟩ := ih hlog hu
      refine ⟨before, e', after ++ [e], u', v, by simp, hu', hv, he', ?_⟩
      intro first x rest hsplit
      rcases List.eq_nil_or_concat rest with rfl | ⟨rest, y, rfl⟩
      · obtain ⟨-, hx⟩ := List.append_inj' hsplit rfl
        obtain rfl := List.singleton_inj.mp hx
        exact ⟨u, t, hu, ht, he⟩
      · have hsplit' : after ++ [e] = (first ++ x :: rest) ++ [y] := by simpa using hsplit
        obtain ⟨hshort, -⟩ := List.append_inj' hsplit' rfl
        exact hafter first x rest hshort
    · exact ⟨log, e, [], u, t, rfl, hu, ht, he, by simp⟩

end

end Journal
