import Mathlib.Data.List.Basic

/-!
# Paths

Lexical path resolution: what object a path denotes in a tree without links. An object is named by the components that lead to
it from the root. A path is a list of symbols with a separator; an empty component and the one-dot component stay where they
are, the two-dot component goes to the parent, any other goes down.
-/

namespace Path

variable {α : Type*} [DecidableEq α] (sep dot : α)

/-- One component of a path, followed from a directory. The parent of the root is the root. -/
def follow (dir : List (List α)) (name : List α) : List (List α) :=
  if name = [] ∨ name = [dot] then dir
  else if name = [dot, dot] then dir.dropLast
  else dir ++ [name]

/-- The object a path denotes, from a working directory. -/
def resolve (cwd : List (List α)) (path : List α) : List (List α) :=
  (path.splitOn sep).foldl (follow dot) (if path.head? = some sep then [] else cwd)

/-- A component that names an entry of the directory it is followed from. -/
structure Entry (name : List α) : Prop where
  ne_nil : name ≠ []
  ne_dot : name ≠ [dot]
  ne_dotdot : name ≠ [dot, dot]

/-- A name that is a path of a single component, and names an entry. -/
structure Plain (name : List α) : Prop extends Entry dot name where
  noSep : sep ∉ name

instance (name : List α) : Decidable (Plain sep dot name) :=
  decidable_of_iff ((name ≠ [] ∧ name ≠ [dot] ∧ name ≠ [dot, dot]) ∧ sep ∉ name)
    ⟨fun h => ⟨⟨h.1.1, h.1.2.1, h.1.2.2⟩, h.2⟩, fun h => ⟨⟨h.ne_nil, h.ne_dot, h.ne_dotdot⟩, h.noSep⟩⟩

variable {sep dot}

theorem follow_entry {name : List α} (h : Entry dot name) (dir : List (List α)) : follow dot dir name = dir ++ [name] := by
  rw [follow, if_neg (by rintro (he | he); exacts [h.ne_nil he, h.ne_dot he]), if_neg h.ne_dotdot]

/-- A component is an entry or does not go down. -/
theorem follow_cases (dir : List (List α)) (name : List α) :
    (Entry dot name ∧ follow dot dir name = dir ++ [name]) ∨ follow dot dir name = dir ∨ follow dot dir name = dir.dropLast := by
  by_cases h : name = [] ∨ name = [dot]
  · exact .inr (.inl (if_pos h))
  · by_cases h' : name = [dot, dot]
    · exact .inr (.inr ((if_neg h).trans (if_pos h')))
    · have he : Entry dot name := ⟨fun e => h (.inl e), fun e => h (.inr e), h'⟩
      exact .inl ⟨he, follow_entry he dir⟩

/-- The components of a path have no separator in them, and nothing that is not in the path. -/
theorem mem_splitOn {path name : List α} (h : name ∈ path.splitOn sep) : sep ∉ name ∧ name.Sublist path := by
  induction path generalizing name with
  | nil =>
    rw [List.splitOn_nil, List.mem_singleton] at h
    subst h
    exact ⟨List.not_mem_nil, List.Sublist.refl _⟩
  | cons x path ih =>
    rw [List.splitOn_cons_eq_if_modifyHead] at h
    by_cases hx : (x == sep) = true
    · rw [if_pos hx, List.mem_cons] at h
      rcases h with rfl | h
      · exact ⟨List.not_mem_nil, List.nil_sublist _⟩
      · exact ⟨(ih h).1, (ih h).2.cons x⟩
    · rw [if_neg hx] at h
      cases hs : path.splitOn sep with
      | nil => exact absurd hs (List.splitOn_ne_nil sep path)
      | cons y ys =>
        rw [hs, List.modifyHead_cons, List.mem_cons] at h
        rcases h with rfl | h
        · obtain ⟨hy, hsub⟩ := ih (hs ▸ List.mem_cons_self : y ∈ path.splitOn sep)
          refine ⟨?_, hsub.cons_cons x⟩
          rw [List.mem_cons, not_or]
          exact ⟨fun e => hx (by simp [e]), hy⟩
        · obtain ⟨hy, hsub⟩ := ih (hs ▸ List.mem_cons_of_mem y h : name ∈ path.splitOn sep)
          exact ⟨hy, hsub.cons x⟩

/-- What a path comes to stand on was there at the start, or is an entry among its components. -/
theorem foldl_follow_getElem? {names dir : List (List α)} {i : Nat} {name : List α}
    (h : (names.foldl (follow dot) dir)[i]? = some name) : dir[i]? = some name ∨ Entry dot name ∧ name ∈ names := by
  induction names generalizing dir with
  | nil => exact .inl h
  | cons n names ih =>
    rw [List.foldl_cons] at h
    rcases ih h with h | ⟨he, hm⟩
    · rcases @follow_cases α _ dot dir n with ⟨he, hf⟩ | hf | hf
      · rw [hf, List.getElem?_append] at h
        split at h
        · exact .inl h
        · obtain rfl : name = n := List.mem_singleton.mp (List.mem_of_getElem? h)
          exact .inr ⟨he, List.mem_cons_self⟩
      · rw [hf] at h
        exact .inl h
      · rw [hf, List.getElem?_dropLast] at h
        split at h
        · exact .inl h
        · nomatch h
    · exact .inr ⟨he, List.mem_cons_of_mem n hm⟩

/-- A path that begins with a plain component goes on from that entry. -/
theorem resolve_cons {name : List α} (h : Plain sep dot name) (cwd : List (List α)) (rest : List α) :
    resolve sep dot cwd (name ++ sep :: rest) = (rest.splitOn sep).foldl (follow dot) (cwd ++ [name]) := by
  have hhead : (name ++ sep :: rest).head? ≠ some sep := by
    cases name with
    | nil => exact absurd rfl h.ne_nil
    | cons x name =>
      intro he
      exact h.noSep (by simp [Option.some.inj he])
  rw [resolve, if_neg hhead, List.splitOn_append_cons_self_of_not_mem h.noSep, List.foldl_cons, follow_entry h.toEntry]

/-- A plain name denotes an entry of the working directory. -/
theorem resolve_plain {name : List α} (h : Plain sep dot name) (cwd : List (List α)) :
    resolve sep dot cwd name = cwd ++ [name] := by
  have hhead : name.head? ≠ some sep := fun he => h.noSep (List.mem_of_mem_head? he)
  rw [resolve, if_neg hhead, List.splitOn_eq_singleton h.noSep, List.foldl_cons, List.foldl_nil, follow_entry h.toEntry]

end Path
