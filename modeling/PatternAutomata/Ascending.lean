/-!
# Ascending lists

A strictly ascending list is searched by halving. A number that is not found belongs at the place where the
search ends, so the list can be extended there. Two lists are merged, and searched for a common member, from
their smallest members on.
-/

namespace PatternAutomata.Ascending

set_option autoImplicit false

variable {xs ys : List Nat} {q : Nat}

theorem ext_mem (hx : xs.Pairwise (· < ·)) (hy : ys.Pairwise (· < ·))
    (h : ∀ q, q ∈ xs ↔ q ∈ ys) : xs = ys := by
  induction xs generalizing ys with
  | nil => exact (List.eq_nil_iff_forall_not_mem.mpr fun q hq => by simpa using (h q).mpr hq).symm
  | cons x xs ih =>
    cases ys with
    | nil => simpa using (h x).mp List.mem_cons_self
    | cons y ys =>
      obtain ⟨hx0, hx1⟩ := List.pairwise_cons.mp hx
      obtain ⟨hy0, hy1⟩ := List.pairwise_cons.mp hy
      have hxy : x = y := by
        rcases List.mem_cons.mp ((h x).mp List.mem_cons_self) with e | m
        · exact e
        · rcases List.mem_cons.mp ((h y).mpr List.mem_cons_self) with e | m'
          · exact e.symm
          · have := hx0 y m'
            have := hy0 x m
            omega
      subst hxy
      rw [ih hx1 hy1 fun q => ?_]
      have hq := h q
      simp only [List.mem_cons] at hq
      constructor
      · intro m
        have := hx0 q m
        rcases hq.mp (Or.inr m) with e | m'
        · omega
        · exact m'
      · intro m
        have := hy0 q m
        rcases hq.mpr (Or.inr m) with e | m'
        · omega
        · exact m'

def insert (q : Nat) : List Nat → List Nat
  | [] => [q]
  | p :: ps => if q < p then q :: p :: ps else if p < q then p :: insert q ps else p :: ps

theorem mem_insert {p q : Nat} {ps : List Nat} : p ∈ insert q ps ↔ p = q ∨ p ∈ ps := by
  induction ps with
  | nil => simp [insert]
  | cons r rs ih =>
    rw [insert]
    split
    · simp
    · split
      · simp only [List.mem_cons, ih]
        exact or_left_comm
      · have : q = r := by omega
        subst this
        simp

theorem pairwise_insert (q : Nat) {ps : List Nat} (h : ps.Pairwise (· < ·)) :
    (insert q ps).Pairwise (· < ·) := by
  induction ps with
  | nil => exact List.pairwise_singleton _ q
  | cons r rs ih =>
    obtain ⟨h0, h1⟩ := List.pairwise_cons.mp h
    rw [insert]
    split
    · rename_i hq
      apply List.pairwise_cons.mpr
      refine ⟨?_, h⟩
      intro p hp
      rcases List.mem_cons.mp hp with e | m
      · omega
      · have := h0 p m
        omega
    · split
      · rename_i hr
        apply List.pairwise_cons.mpr
        refine ⟨?_, ih h1⟩
        intro p hp
        rcases mem_insert.mp hp with e | m
        · omega
        · exact h0 p m
      · exact h

/-- The place of a number between two places, or else the place where it belongs. -/
def searchFrom (xs : List Nat) (q lo hi : Nat) (hhi : hi ≤ xs.length) : Except Nat Nat :=
  if hlo : lo < hi then
    have hmid : lo + (hi - lo) / 2 < xs.length := by omega
    if xs[lo + (hi - lo) / 2] = q then .ok (lo + (hi - lo) / 2)
    else if xs[lo + (hi - lo) / 2] < q then searchFrom xs q (lo + (hi - lo) / 2 + 1) hi hhi
    else searchFrom xs q lo (lo + (hi - lo) / 2) (Nat.le_of_lt hmid)
  else .error lo
termination_by hi - lo

def search (xs : List Nat) (q : Nat) : Except Nat Nat := searchFrom xs q 0 xs.length (Nat.le_refl _)

theorem getElem_lt {i j : Nat} (hxs : xs.Pairwise (· < ·)) (hij : i < j) (hj : j < xs.length) : xs[i] < xs[j] :=
  List.pairwise_iff_getElem.mp hxs i j _ hj hij

/-- A number belongs between two places: all members in front of the first are smaller, and all from the
second on are greater. -/
structure Between (xs : List Nat) (q lo hi : Nat) : Prop where
  le : lo ≤ hi
  below : ∀ i (hi : i < xs.length), i < lo → xs[i] < q
  above : ∀ i (hlt : i < xs.length), hi ≤ i → q < xs[i]

theorem between_bounds (xs : List Nat) (q : Nat) : Between xs q 0 xs.length :=
  ⟨Nat.zero_le _, fun _ _ h => absurd h (Nat.not_lt_zero _), fun _ h h' => absurd h (Nat.not_lt.mpr h')⟩

namespace Between

variable {lo hi mid : Nat}

theorem right (h : Between xs q lo hi) (hxs : xs.Pairwise (· < ·)) (hmid : mid < xs.length) (hhi : mid < hi)
    (hq : xs[mid] < q) : Between xs q (mid + 1) hi := by
  refine ⟨hhi, ?_, h.above⟩
  intro i hi hlt
  rcases Nat.lt_succ_iff_lt_or_eq.mp hlt with hlt | rfl
  · exact Nat.lt_trans (getElem_lt hxs hlt hmid) hq
  · exact hq

theorem left (h : Between xs q lo hi) (hxs : xs.Pairwise (· < ·)) (hmid : mid < xs.length) (hlo : lo ≤ mid)
    (hq : q < xs[mid]) : Between xs q lo mid := by
  refine ⟨hlo, h.below, ?_⟩
  intro i hlt hle
  rcases Nat.lt_or_eq_of_le hle with hle | rfl
  · exact Nat.lt_trans hq (getElem_lt hxs hle hlt)
  · exact hq

end Between

theorem of_searchFrom_ok {lo hi i : Nat} {hhi : hi ≤ xs.length} (h : searchFrom xs q lo hi hhi = .ok i) :
    q ∈ xs := by
  fun_induction searchFrom xs q lo hi hhi with
  | case1 lo hi hhi hlo hmid heq => exact heq ▸ List.getElem_mem hmid
  | case2 lo hi hhi hlo hmid hne hlt ih => exact ih h
  | case3 lo hi hhi hlo hmid hne hge ih => exact ih h
  | case4 lo hi hhi hlo => cases h

theorem of_searchFrom_error (hxs : xs.Pairwise (· < ·)) {lo hi i : Nat} {hhi : hi ≤ xs.length}
    (hq : Between xs q lo hi) (h : searchFrom xs q lo hi hhi = .error i) : i ≤ xs.length ∧ Between xs q i i := by
  fun_induction searchFrom xs q lo hi hhi with
  | case1 lo hi hhi hlo hmid heq => cases h
  | case2 lo hi hhi hlo hmid hne hlt ih => exact ih (hq.right hxs hmid (by omega) hlt) h
  | case3 lo hi hhi hlo hmid hne hge ih => exact ih (hq.left hxs hmid (by omega) (by omega)) h
  | case4 lo hi hhi hlo =>
    obtain rfl : lo = hi := Nat.le_antisymm hq.le (Nat.not_lt.mp hlo)
    cases h
    exact ⟨hhi, hq⟩

theorem Between.not_mem {i : Nat} (h : Between xs q i i) : q ∉ xs := by
  intro hq
  obtain ⟨j, hj, rfl⟩ := List.mem_iff_getElem.mp hq
  rcases Nat.lt_or_ge j i with hlt | hge
  · exact Nat.lt_irrefl _ (h.below j hj hlt)
  · exact Nat.lt_irrefl _ (h.above j hj hge)

theorem Between.insertIdx_eq {i : Nat} (h : Between xs q i i) (hi : i ≤ xs.length) :
    xs.insertIdx i q = insert q xs := by
  induction xs generalizing i with
  | nil =>
    obtain rfl : i = 0 := Nat.le_zero.mp hi
    rfl
  | cons x xs ih =>
    cases i with
    | zero =>
      have hx : q < x := h.above 0 (Nat.zero_lt_succ _) (Nat.le_refl 0)
      rw [List.insertIdx_zero, insert, if_pos hx]
    | succ i =>
      have hx : x < q := h.below 0 (Nat.zero_lt_succ _) (Nat.zero_lt_succ _)
      have htail : Between xs q i i :=
        ⟨Nat.le_refl i, fun j hj hlt => h.below (j + 1) (Nat.succ_lt_succ hj) (Nat.succ_lt_succ hlt),
          fun j hj hle => h.above (j + 1) (Nat.succ_lt_succ hj) (Nat.succ_le_succ hle)⟩
      rw [List.insertIdx_succ_cons, ih htail (Nat.le_of_succ_le_succ hi), insert, if_neg (Nat.lt_asymm hx), if_pos hx]

def contains (xs : List Nat) (q : Nat) : Bool := (search xs q).isOk

theorem contains_iff (hxs : xs.Pairwise (· < ·)) : contains xs q = true ↔ q ∈ xs := by
  rw [contains]
  cases h : search xs q with
  | ok i => exact iff_of_true rfl (of_searchFrom_ok h)
  | error i => exact iff_of_false Bool.false_ne_true (of_searchFrom_error hxs (between_bounds xs q) h).2.not_mem

/-- The list with a number in its place, and whether the number is new to it. -/
def add (q : Nat) (xs : List Nat) : List Nat × Bool :=
  match search xs q with
  | .ok _ => (xs, false)
  | .error i => (xs.insertIdx i q, true)

theorem insert_of_mem (hxs : xs.Pairwise (· < ·)) (hq : q ∈ xs) : insert q xs = xs := by
  apply ext_mem (pairwise_insert q hxs) hxs
  intro p
  rw [mem_insert]
  exact ⟨fun hp => hp.elim (fun he => he ▸ hq) id, Or.inr⟩

theorem add_eq (hxs : xs.Pairwise (· < ·)) : add q xs = (insert q xs, decide (q ∉ xs)) := by
  rw [add]
  cases h : search xs q with
  | ok i =>
    have hq := of_searchFrom_ok h
    simp [insert_of_mem hxs hq, hq]
  | error i =>
    obtain ⟨hi, hq⟩ := of_searchFrom_error hxs (between_bounds xs q) h
    simp [hq.insertIdx_eq hi, hq.not_mem]

def addAll (xs : List Nat) (qs : List Nat) : List Nat := qs.foldl (fun xs q => (add q xs).1) xs

/-- The members of any list in order, each of them once. -/
def ofList (qs : List Nat) : List Nat := qs.mergeSort.eraseReps

theorem mem_eraseReps_loop {p a : Nat} (as acc : List Nat) :
    p ∈ List.eraseRepsBy.loop (· == ·) a as acc ↔ p ∈ acc ∨ p = a ∨ p ∈ as := by
  induction as generalizing a acc with
  | nil => simp [List.eraseRepsBy.loop, or_comm]
  | cons b as ih =>
    rw [List.eraseRepsBy.loop]
    split
    · rename_i h
      obtain rfl : a = b := eq_of_beq h
      simp only [ih, List.mem_cons, or_self_left]
    · simp only [ih, List.mem_cons]
      exact or_assoc.trans or_left_comm

/-- What has been kept is in descending order, its last member being in front of all that follows. -/
theorem pairwise_eraseReps_loop {a : Nat} {as acc : List Nat} (hacc : (a :: acc).Pairwise (· > ·))
    (has : (a :: as).Pairwise (· ≤ ·)) : (List.eraseRepsBy.loop (· == ·) a as acc).Pairwise (· < ·) := by
  induction as generalizing a acc with
  | nil =>
    rw [List.eraseRepsBy.loop, List.pairwise_reverse]
    exact hacc
  | cons b as ih =>
    obtain ⟨hle, htail⟩ := List.pairwise_cons.mp has
    rw [List.eraseRepsBy.loop]
    split
    · rename_i h
      obtain rfl : a = b := eq_of_beq h
      exact ih hacc htail
    · rename_i h
      have hlt : a < b := Nat.lt_of_le_of_ne (hle b List.mem_cons_self) (ne_of_beq_false h)
      refine ih (List.pairwise_cons.mpr ⟨?_, hacc⟩) htail
      intro p hp
      rcases List.mem_cons.mp hp with rfl | hp
      · exact hlt
      · exact Nat.lt_trans ((List.pairwise_cons.mp hacc).1 p hp) hlt

theorem mem_ofList {qs : List Nat} : q ∈ ofList qs ↔ q ∈ qs := by
  have hsort : q ∈ qs.mergeSort ↔ q ∈ qs := List.mem_mergeSort
  rw [← hsort, ofList]
  cases qs.mergeSort with
  | nil => rfl
  | cons a as =>
    have h := mem_eraseReps_loop (p := q) (a := a) as []
    rw [or_iff_right List.not_mem_nil, ← List.mem_cons] at h
    exact h

theorem pairwise_ofList (qs : List Nat) : (ofList qs).Pairwise (· < ·) := by
  have hsorted : qs.mergeSort.Pairwise fun a b => decide (a ≤ b) = true :=
    List.pairwise_mergeSort (by simpa using fun _ _ _ => Nat.le_trans) (by simpa using Nat.le_total) qs
  simp only [decide_eq_true_eq] at hsorted
  rw [ofList]
  cases h : qs.mergeSort with
  | nil => exact .nil
  | cons a as => exact pairwise_eraseReps_loop (List.pairwise_singleton _ a) (h ▸ hsorted)

/-- Merges a list into `x` followed by what `rest` makes of the remainder. -/
def mergeStep (x : Nat) (rest : List Nat → List Nat) : List Nat → List Nat
  | [] => x :: rest []
  | y :: ys => if x < y then x :: rest (y :: ys) else if y < x then y :: mergeStep x rest ys else x :: rest ys

/-- Merges two ascending lists; a common member appears once. -/
def merge : List Nat → List Nat → List Nat
  | [], ys => ys
  | x :: xs, ys => mergeStep x (merge xs) ys

theorem mem_mergeStep {q x : Nat} {xs : List Nat} {rest : List Nat → List Nat}
    (h : ∀ ys, q ∈ rest ys ↔ q ∈ xs ∨ q ∈ ys) (ys : List Nat) :
    q ∈ mergeStep x rest ys ↔ (q = x ∨ q ∈ xs) ∨ q ∈ ys := by
  induction ys with
  | nil => simp [mergeStep, h]
  | cons y ys ih =>
    rw [mergeStep]
    split
    · simp only [List.mem_cons, h, or_assoc]
    · split
      · simp only [List.mem_cons, ih]
        exact or_left_comm
      · have : x = y := by omega
        subst this
        simp only [List.mem_cons, h]
        constructor
        · rintro (e | m | m)
          · exact Or.inl (Or.inl e)
          · exact Or.inl (Or.inr m)
          · exact Or.inr (Or.inr m)
        · rintro ((e | m) | e | m)
          · exact Or.inl e
          · exact Or.inr (Or.inl m)
          · exact Or.inl e
          · exact Or.inr (Or.inr m)

theorem mem_merge {q : Nat} (xs ys : List Nat) : q ∈ merge xs ys ↔ q ∈ xs ∨ q ∈ ys := by
  induction xs generalizing ys with
  | nil => simp [merge]
  | cons x xs ih => rw [merge, mem_mergeStep ih, List.mem_cons]

/-- In front of two lists stands a number that is smaller than the members of both. -/
theorem pairwise_front {x : Nat} {zs : List Nat} (hx : ∀ q ∈ xs, x < q) (hy : ∀ q ∈ ys, x < q)
    (hmem : ∀ q, q ∈ zs ↔ q ∈ xs ∨ q ∈ ys) (hzs : zs.Pairwise (· < ·)) : (x :: zs).Pairwise (· < ·) := by
  apply List.pairwise_cons.mpr
  refine ⟨?_, hzs⟩
  intro q hq
  exact ((hmem q).mp hq).elim (hx q) (hy q)

theorem forall_mem_lt {x y : Nat} (hxy : x < y) (hy : ∀ q ∈ ys, y < q) : ∀ q ∈ y :: ys, x < q := by
  intro q hq
  rcases List.mem_cons.mp hq with rfl | hq
  · exact hxy
  · exact Nat.lt_trans hxy (hy q hq)

theorem pairwise_mergeStep {x : Nat} {rest : List Nat → List Nat} (hx : ∀ q ∈ xs, x < q)
    (hmem : ∀ ys q, q ∈ rest ys ↔ q ∈ xs ∨ q ∈ ys)
    (hrest : ∀ {ys}, ys.Pairwise (· < ·) → (rest ys).Pairwise (· < ·)) (hy : ys.Pairwise (· < ·)) :
    (mergeStep x rest ys).Pairwise (· < ·) := by
  induction ys with
  | nil => exact pairwise_front hx (fun _ h => absurd h List.not_mem_nil) (hmem []) (hrest hy)
  | cons y ys ih =>
    obtain ⟨hbehind, htail⟩ := List.pairwise_cons.mp hy
    rw [mergeStep]
    split
    · rename_i hxy
      exact pairwise_front hx (forall_mem_lt hxy hbehind) (hmem (y :: ys)) (hrest hy)
    · split
      · rename_i hyx
        have hstep : ∀ q, q ∈ mergeStep x rest ys ↔ q ∈ x :: xs ∨ q ∈ ys := by
          intro q
          rw [mem_mergeStep (fun ys => hmem ys q), List.mem_cons]
        exact pairwise_front (forall_mem_lt hyx hx) hbehind hstep (ih htail)
      · have hxy : x = y := by omega
        exact pairwise_front hx (hxy ▸ hbehind) (hmem ys) (hrest htail)

theorem pairwise_merge (hx : xs.Pairwise (· < ·)) (hy : ys.Pairwise (· < ·)) : (merge xs ys).Pairwise (· < ·) := by
  induction xs generalizing ys with
  | nil => exact hy
  | cons x xs ih =>
    obtain ⟨hbehind, htail⟩ := List.pairwise_cons.mp hx
    exact pairwise_mergeStep hbehind (fun ys _ => mem_merge xs ys) (ih htail) hy

def union (xs ys : List Nat) : List Nat := if ys.isEmpty then xs else merge xs ys

theorem merge_nil (xs : List Nat) : merge xs [] = xs := by
  induction xs with
  | nil => rfl
  | cons x xs ih => rw [merge, mergeStep, ih]

theorem union_eq (xs ys : List Nat) : union xs ys = merge xs ys := by
  cases ys with
  | nil => exact (merge_nil xs).symm
  | cons y ys => rfl

/-- Whether two lists have a common member from two places on. The place of the smaller member moves on. -/
def meetsFrom (xs ys : List Nat) (i j : Nat) : Bool :=
  if h : i < xs.length ∧ j < ys.length then
    if xs[i] < ys[j] then meetsFrom xs ys (i + 1) j
    else if ys[j] < xs[i] then meetsFrom xs ys i (j + 1)
    else true
  else false
termination_by (xs.length - i) + (ys.length - j)

def meets (xs ys : List Nat) : Bool := meetsFrom xs ys 0 0

theorem getElem_le_of_mem_drop {i : Nat} (hxs : xs.Pairwise (· < ·)) (hi : i < xs.length) (hq : q ∈ xs.drop i) :
    xs[i] ≤ q := by
  rw [List.drop_eq_getElem_cons hi] at hq
  rcases List.mem_cons.mp hq with rfl | hq
  · exact Nat.le_refl _
  · obtain ⟨k, hk, rfl⟩ := List.mem_iff_getElem.mp hq
    rw [List.getElem_drop]
    exact Nat.le_of_lt (getElem_lt hxs (by omega) _)

/-- A member that is smaller than all that is left of the other list can be passed over. -/
theorem exists_common_succ {i j : Nat} (hys : ys.Pairwise (· < ·)) (hi : i < xs.length) (hj : j < ys.length)
    (hlt : xs[i] < ys[j]) :
    (∃ q, q ∈ xs.drop (i + 1) ∧ q ∈ ys.drop j) ↔ ∃ q, q ∈ xs.drop i ∧ q ∈ ys.drop j := by
  rw [List.drop_eq_getElem_cons hi]
  constructor
  · rintro ⟨q, hx, hy⟩
    exact ⟨q, List.mem_cons_of_mem _ hx, hy⟩
  · rintro ⟨q, hx, hy⟩
    rcases List.mem_cons.mp hx with rfl | hx
    · exact absurd (getElem_le_of_mem_drop hys hj hy) (Nat.not_le.mpr hlt)
    · exact ⟨q, hx, hy⟩

theorem meetsFrom_iff (hxs : xs.Pairwise (· < ·)) (hys : ys.Pairwise (· < ·)) (i j : Nat) :
    meetsFrom xs ys i j = true ↔ ∃ q, q ∈ xs.drop i ∧ q ∈ ys.drop j := by
  fun_induction meetsFrom xs ys i j with
  | case1 i j h hlt ih => rw [ih, exists_common_succ hys h.1 h.2 hlt]
  | case2 i j h hge hlt ih =>
    have hcommon := exists_common_succ hxs h.2 h.1 hlt
    simp only [and_comm (b := _ ∈ List.drop i xs)] at hcommon
    rw [ih, hcommon]
  | case3 i j h hge hle =>
    have heq : xs[i] = ys[j] := Nat.le_antisymm (Nat.not_lt.mp hle) (Nat.not_lt.mp hge)
    refine iff_of_true rfl ⟨xs[i], ?_, ?_⟩
    · rw [List.drop_eq_getElem_cons h.1]
      exact List.mem_cons_self
    · rw [heq, List.drop_eq_getElem_cons h.2]
      exact List.mem_cons_self
  | case4 i j h =>
    refine iff_of_false Bool.false_ne_true ?_
    rintro ⟨q, hx, hy⟩
    have hi := List.length_pos_of_mem hx
    have hj := List.length_pos_of_mem hy
    rw [List.length_drop] at hi hj
    exact h ⟨by omega, by omega⟩

theorem meets_iff (hxs : xs.Pairwise (· < ·)) (hys : ys.Pairwise (· < ·)) :
    meets xs ys = true ↔ ∃ q, q ∈ xs ∧ q ∈ ys := by
  have h := meetsFrom_iff hxs hys 0 0
  rwa [List.drop_zero, List.drop_zero] at h

end PatternAutomata.Ascending
