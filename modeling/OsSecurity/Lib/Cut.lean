import Mathlib.Data.List.Basic

/-!
# Lists cut at an element

A list around one of its elements, as two lists and the element between them: where a search finds it, and what an assignment to
its place leaves.
-/

namespace Cut

variable {α : Type*}

/-- A list around the element at an index. -/
theorem exists_of_lt {l : List α} {i : Nat} (h : i < l.length) : ∃ a x b, l = a ++ x :: b ∧ a.length = i := by
  refine ⟨l.take i, l[i], l.drop (i + 1), ?_, List.length_take_of_le (Nat.le_of_lt h)⟩
  rw [← List.drop_eq_getElem_cons h, List.take_append_drop]

/-- The first index that satisfies a predicate cuts the list in two. -/
theorem exists_of_findIdx? {p : α → Bool} {l : List α} {i : Nat} (h : l.findIdx? p = some i) :
    ∃ a x b, l = a ++ x :: b ∧ a.length = i ∧ p x = true ∧ ∀ y ∈ a, ¬ p y = true := by
  induction l generalizing i with
  | nil => nomatch h
  | cons x l ih =>
    rw [List.findIdx?_cons] at h
    cases hx : p x with
    | true =>
      rw [hx, if_pos rfl] at h
      exact ⟨[], x, l, rfl, Option.some.inj h, hx, by simp⟩
    | false =>
      rw [hx, if_neg (by simp), Option.map_eq_some_iff] at h
      obtain ⟨j, hj, rfl⟩ := h
      obtain ⟨a, y, b, rfl, rfl, hy, ha⟩ := ih hj
      refine ⟨x :: a, y, b, rfl, rfl, hy, ?_⟩
      intro z hz
      rcases List.mem_cons.mp hz with rfl | hz
      · simp [hx]
      · exact ha z hz

/-- An assignment to the place behind a prefix. -/
theorem modify_append (a b : List α) (x : α) (f : α → α) : (a ++ x :: b).modify a.length f = a ++ f x :: b := by
  induction a with
  | nil => rfl
  | cons y a ih => simp [ih]

theorem set_append (a b : List α) (x y : α) : (a ++ x :: b).set a.length y = a ++ y :: b := by
  induction a with
  | nil => rfl
  | cons z a ih => simp [ih]

/-- What holds of the elements of a list still holds when one of them is replaced. -/
theorem forall_mem_replace {P : α → Prop} {us vs : List α} {x y : α} (h : ∀ e ∈ us ++ x :: vs, P e) (hy : P y) :
    ∀ e ∈ us ++ y :: vs, P e := by
  intro e he
  rcases List.mem_append.mp he with he | he
  · exact h e (List.mem_append_left _ he)
  · rcases List.mem_cons.mp he with rfl | he
    · exact hy
    · exact h e (List.mem_append_right us (List.mem_cons_of_mem x he))

/-- What holds of every element and the list before it, in a list with one more element. -/
theorem forall_cut_concat {P : List α → α → Prop} (l : List α) (x : α) :
    (∀ a y b, l ++ [x] = a ++ y :: b → P a y) ↔ (∀ a y b, l = a ++ y :: b → P a y) ∧ P l x := by
  constructor
  · intro h
    refine ⟨?_, h l x [] rfl⟩
    rintro a y b rfl
    exact h a y (b ++ [x]) (by simp)
  · rintro ⟨h, hx⟩ a y b heq
    rcases List.eq_nil_or_concat b with rfl | ⟨b, z, rfl⟩
    · obtain ⟨rfl, hxy⟩ := List.append_inj' heq rfl
      obtain rfl : x = y := List.head_eq_of_cons_eq hxy
      exact hx
    · rw [List.concat_eq_append, ← List.cons_append, ← List.append_assoc] at heq
      exact h a y b (List.append_inj' heq rfl).1

/-- A list, and the next element of a longer one that begins with it. -/
theorem prefix_concat {xs ys : List α} {x : α} (h : xs <+: ys) (hx : ys[xs.length]? = some x) : xs ++ [x] <+: ys := by
  obtain ⟨zs, rfl⟩ := h
  rw [List.getElem?_append_right (Nat.le_refl _), Nat.sub_self] at hx
  cases zs with
  | nil => cases hx
  | cons z zs =>
    obtain rfl := Option.some.inj hx
    exact ⟨zs, by rw [List.append_assoc]; rfl⟩

/-- A cut of a list that is put together from parts is a cut of the parts, and of one of them. -/
theorem exists_of_flatMap {β : Type*} {f : β → List α} {l : List β} {a b : List α} {x : α} (h : l.flatMap f = a ++ x :: b) :
    ∃ us u vs c d, l = us ++ u :: vs ∧ f u = c ++ x :: d ∧ a = us.flatMap f ++ c := by
  induction l generalizing a with
  | nil => exact absurd h (by simp)
  | cons u l ih =>
    rw [List.flatMap_cons] at h
    rcases List.append_eq_append_iff.mp h with ⟨z, rfl, hl⟩ | ⟨z, hu, hx⟩
    · obtain ⟨us, v, vs, c, d, rfl, hv, rfl⟩ := ih hl
      exact ⟨u :: us, v, vs, c, d, rfl, hv, by rw [List.flatMap_cons, List.append_assoc]⟩
    · cases z with
      | nil =>
        obtain ⟨us, v, vs, c, d, rfl, hv, hc⟩ := ih (a := []) hx.symm
        refine ⟨u :: us, v, vs, c, d, rfl, hv, ?_⟩
        rw [List.flatMap_cons, List.append_assoc, ← hc, hu, List.append_nil, List.append_nil]
      | cons y z =>
        obtain ⟨rfl, -⟩ := List.cons.inj hx
        exact ⟨[], u, l, a, z, rfl, hu, rfl⟩

/-! ## Two cuts at one separator -/

/-- A cut at the first separator is the same as another cut at it, or that one lies behind it. -/
theorem cons_eq_cases {c : α} {a b s t : List α} (hc : c ∉ a) (h : a ++ c :: s = b ++ c :: t) :
    (a = b ∧ s = t) ∨ ∃ x, b = a ++ c :: x ∧ s = x ++ c :: t := by
  rcases List.append_eq_append_iff.mp h with ⟨x, rfl, hx⟩ | ⟨x, rfl, hx⟩
  · cases x with
    | nil => exact .inl ⟨(List.append_nil a).symm, (List.cons.inj hx).2⟩
    | cons d x =>
      obtain ⟨rfl, hs⟩ := List.cons.inj hx
      exact .inr ⟨x, rfl, hs⟩
  · cases x with
    | nil => exact .inl ⟨List.append_nil b, (List.cons.inj hx).2.symm⟩
    | cons d x =>
      obtain ⟨rfl, -⟩ := List.cons.inj hx
      exact absurd (List.mem_append_right b List.mem_cons_self) hc

/-- Two cuts at the first separator are the same. -/
theorem first_inj {c : α} {a b s t : List α} (ha : c ∉ a) (hb : c ∉ b) (h : a ++ c :: s = b ++ c :: t) : a = b ∧ s = t := by
  rcases cons_eq_cases ha h with heq | ⟨x, rfl, -⟩
  · exact heq
  · exact absurd (List.mem_append_right a List.mem_cons_self) hb

/-- Two cuts at the last separator are the same. -/
theorem last_inj {c : α} {a b s t : List α} (hs : c ∉ s) (ht : c ∉ t) (h : a ++ c :: s = b ++ c :: t) : a = b ∧ s = t := by
  have hreverse : s.reverse ++ c :: a.reverse = t.reverse ++ c :: b.reverse := by
    simpa using congrArg List.reverse h
  obtain ⟨hst, hab⟩ := first_inj (by rwa [List.mem_reverse]) (by rwa [List.mem_reverse]) hreverse
  exact ⟨List.reverse_inj.mp hab, List.reverse_inj.mp hst⟩

end Cut
