/-!
# Tables

A table is an array with an entry for every index below its size. What uses an index that is not there
has no result. `exists_foldlM` is the way to a result: what holds of the elements that were dealt with
says that the next one can be dealt with, too. `Lists` says what the entries of a table hold.
-/

namespace PatternAutomata.Table

set_option autoImplicit false

variable {α β : Type} {table : Array α} {f : α → α} {i j : Nat} {x : α}

/-- Changes an entry, if there is one at the index. -/
def alter? (table : Array α) (i : Nat) (f : α → α) : Option (Array α) :=
  if i < table.size then some (table.modify i f) else none

theorem alter?_of_lt (h : i < table.size) : alter? table i f = some (table.modify i f) := if_pos h

theorem alter?_const (h : i < table.size) : alter? table i (fun _ => x) = some (table.setIfInBounds i x) :=
  alter?_of_lt h

theorem modify_append (xs ys : List α) (i : Nat) :
    (xs ++ ys).modify (xs.length + i) f = xs ++ ys.modify i f := by
  induction xs with
  | nil => simp
  | cons x xs ih =>
    have hi : (x :: xs).length + i = xs.length + i + 1 := by simp only [List.length_cons]; omega
    rw [hi, List.cons_append, List.modify_succ_cons, ih, List.cons_append]

/-- If each element can be dealt with behind those before it, all can. -/
theorem exists_foldlM {g : β → α → Option β} {motive : List α → β → Prop} (xs : List α) {b : β}
    (start : motive [] b)
    (step : ∀ done x rest b, xs = done ++ x :: rest → motive done b →
      ∃ c, g b x = some c ∧ motive (done ++ [x]) c) :
    ∃ c, xs.foldlM g b = some c ∧ motive xs c := by
  have h : ∀ done rest b, xs = done ++ rest → motive done b →
      ∃ c, rest.foldlM g b = some c ∧ motive xs c := by
    intro done rest
    induction rest generalizing done with
    | nil =>
      intro b hxs hb
      rw [List.append_nil] at hxs
      exact ⟨b, rfl, hxs ▸ hb⟩
    | cons x rest ih =>
      intro b hxs hb
      obtain ⟨c, hc, hmotive⟩ := step done x rest b hxs hb
      rw [List.foldlM_cons, hc]
      exact ih (done ++ [x]) c (by simpa using hxs) hmotive
  exact h [] xs b rfl start

/-- A table with a place for every number below `n`, at which a relation says what the entry holds. -/
structure Lists {γ : Type} [Membership Nat γ] (n : Nat) (table : Array γ) (R : Nat → Nat → Prop) : Prop where
  size_eq : table.size = n
  mem_iff : ∀ i s, table[i]? = some s → ∀ q, q ∈ s ↔ R i q

namespace Lists

variable {γ : Type} [Membership Nat γ] {n : Nat} {table : Array γ} {R R' : Nat → Nat → Prop} {s : γ}

theorem replicate (hs : ∀ q, q ∉ s) : Lists n (Array.replicate n s) fun _ _ => False where
  size_eq := Array.size_replicate
  mem_iff i s' h q := by
    obtain ⟨_, rfl⟩ : i < n ∧ s = s' := by simpa [Array.getElem?_replicate] using h
    simp [hs q]

theorem congr (h : Lists n table R) (hR : ∀ i q, R i q ↔ R' i q) : Lists n table R' where
  size_eq := h.size_eq
  mem_iff i s hs q := by rw [h.mem_iff i s hs q, hR]

theorem getElem? (h : Lists n table R) (hi : i < n) : ∃ s, table[i]? = some s ∧ ∀ q, q ∈ s ↔ R i q := by
  have hsome := Array.getElem?_eq_getElem (h.size_eq.symm ▸ hi)
  exact ⟨_, hsome, h.mem_iff i _ hsome⟩

theorem alter (h : Lists n table R) (hi : i < n) {f : γ → γ} {new : Nat → Prop}
    (hf : ∀ s q, q ∈ f s ↔ q ∈ s ∨ new q) :
    ∃ next, alter? table i f = some next ∧ Lists n next fun j q => R j q ∨ (j = i ∧ new q) := by
  refine ⟨_, alter?_of_lt (h.size_eq.symm ▸ hi), ?_, ?_⟩
  · rw [Array.size_modify, h.size_eq]
  · intro j s hs q
    by_cases hij : i = j
    · subst hij
      rw [Array.getElem?_modify, if_pos rfl, Option.map_eq_some_iff] at hs
      obtain ⟨before, hbefore, rfl⟩ := hs
      simp [hf, h.mem_iff i before hbefore q]
    · rw [Array.getElem?_modify, if_neg hij] at hs
      simp [h.mem_iff j s hs q, Ne.symm hij]

end Lists

end PatternAutomata.Table
