import PatternAutomata.Proofs.Dfa.Partition
import PatternAutomata.Proofs.Dfa.Residual

/-!
# Refinement of partitions

A round of refinement splits the blocks by the rows of their states, with each target replaced by
its block (`Dfa.refined`). As long as the states have no edges out of the set that is divided no
round fails, and the last round leaves the partition as it is. States with one language are never
separated, and when nothing changes any more the states of a block have one language.
-/

namespace PatternAutomata

set_option autoImplicit false

def Row.map (f : Nat → Nat) (r : Row) : Row :=
  ⟨r.toList.map fun e => (e.1, f e.2), List.pairwise_map.mpr r.ascending⟩

@[simp] theorem Row.get?_map (f : Nat → Nat) (r : Row) (c : Char) : (r.map f).get? c = (r.get? c).map f := by
  change (r.toList.map fun e => (e.1, f e.2)).lookup c = (r.toList.lookup c).map f
  induction r.toList with
  | nil => rfl
  | cons e es ih =>
    obtain ⟨d, t⟩ := e
    rw [List.map_cons, Row.lookup_cons_ite, Row.lookup_cons_ite, ih]
    split <;> rfl

theorem Row.ofList_toList (r : Row) : Row.ofList r.toList = r := by
  apply Row.ext_get?
  intro c
  exact Row.get?_ofList r.toList c

theorem mapM_eq_pure {m : Type → Type} [Monad m] [LawfulMonad m] {α β : Type} {f : α → m β} {g : α → β}
    {xs : List α} (h : ∀ x ∈ xs, f x = pure (g x)) : xs.mapM f = pure (xs.map g) := by
  induction xs with
  | nil => rfl
  | cons x xs ih =>
    obtain ⟨hx, hxs⟩ := List.forall_mem_cons.mp h
    rw [List.mapM_cons, hx, ih hxs, pure_bind, pure_bind]
    rfl

theorem mapM_eq_ok {ε α β : Type} {f : α → Except ε β} {g : α → β} {xs : List α}
    (h : ∀ x ∈ xs, f x = .ok (g x)) : xs.mapM f = .ok (xs.map g) := mapM_eq_pure h

theorem mapM_eq_some {α β : Type} {f : α → Option β} {g : α → β} {xs : List α}
    (h : ∀ x ∈ xs, f x = some (g x)) : xs.mapM f = some (xs.map g) := mapM_eq_pure h

section FlatMap

variable {α : Type} {f : α → List α} {xs : List α} (hne : ∀ x, f x ≠ [])
include hne

theorem length_le_flatMap (xs : List α) : xs.length ≤ (xs.flatMap f).length := by
  induction xs with
  | nil => exact Nat.le_refl 0
  | cons x xs ih =>
    have := List.length_pos_iff.mpr (hne x)
    simp only [List.flatMap_cons, List.length_cons, List.length_append]
    omega

theorem flatMap_eq_self (hself : ∀ x, (f x).length ≤ 1 → f x = [x])
    (h : (xs.flatMap f).length ≤ xs.length) : xs.flatMap f = xs := by
  induction xs with
  | nil => rfl
  | cons x xs ih =>
    have hx := List.length_pos_iff.mpr (hne x)
    have hxs := length_le_flatMap hne xs
    simp only [List.flatMap_cons, List.length_cons, List.length_append] at h
    rw [List.flatMap_cons, hself x (by omega), ih (by omega)]
    rfl

end FlatMap

namespace Dfa

variable {d : Dfa} {p : Partition} {s : NatSet} {x y q t : Nat} {c : Char} {w : List Char}

/-- A set of states that no edge leaves. -/
structure Closed (d : Dfa) (s : NatSet) : Prop where
  states : ∀ q ∈ s, q < d.size
  edges : ∀ q ∈ s, ∀ c t, d.next? q c = some t → t ∈ s

theorem Closed.mem_of_row (hd : d.Closed s) (hq : q ∈ s) {e : Char × Nat} (he : e ∈ (d.row q).toList) :
    e.2 ∈ s := hd.edges q hq e.1 e.2 (Row.mem_toList_iff.mp he)

/-- The edges of a state, with the block of each target instead of the target. -/
def profile (d : Dfa) (p : Partition) (q : Nat) : Row := (d.row q).map p.index

theorem profile_eq_iff :
    d.profile p x = d.profile p y ↔ ∀ c, (d.next? x c).map p.index = (d.next? y c).map p.index := by
  constructor
  · intro h c
    have hc : (d.profile p x).get? c = (d.profile p y).get? c := by rw [h]
    rwa [profile, profile, Row.get?_map, Row.get?_map] at hc
  · intro h
    apply Row.ext_get?
    intro c
    rw [profile, profile, Row.get?_map, Row.get?_map]
    exact h c

/-- The blocks of a partition, split by the profiles of their states. -/
def refined (d : Dfa) (p : Partition) : Partition :=
  p.flatMap fun b => Partition.groups (b.members.map fun q => ((d.profile p q).toList, q))

section Round

variable (hd : d.Closed s) (hp : p.Divides s)
include hd hp

theorem signature_eq (hq : q ∈ s) : d.signature (p.classes d.size) q = .ok (d.profile p q).toList := by
  unfold signature profile Row.map
  apply mapM_eq_ok
  intro e he
  have hmem := hd.mem_of_row hq he
  rw [Partition.getElem?_classes hp hmem (hd.states _ hmem)]

theorem refineBlock_eq {b : Block} (hb : b ∈ p) :
    d.refineBlock (p.classes d.size) b =
      .ok (Partition.groups (b.members.map fun q => ((d.profile p q).toList, q))) := by
  have hsignature : ∀ q ∈ b.members, d.signature (p.classes d.size) q = .ok (d.profile p q).toList :=
    fun q hq => signature_eq hd hp (hp.mem_iff.mpr ⟨b, hb, hq⟩)
  unfold refineBlock
  split
  · rename_i hone
    obtain ⟨q, qs⟩ := b
    obtain rfl : qs = [] := hone
    simp [Block.members, Partition.groups, Partition.tagged, Partition.untagged]
  · rw [mapM_eq_ok (g := fun q => ((d.profile p q).toList, q)) fun q hq => by rw [hsignature q hq]; rfl]
    rfl

theorem refine_eq : d.refine p = .ok (d.refined p) := by
  unfold refine refined
  rw [mapM_eq_ok fun b hb => refineBlock_eq hd hp hb]
  rfl

end Round

theorem divides_refined (hp : p.Divides s) : (d.refined p).Divides s := by
  constructor
  · apply List.Perm.trans ?_ hp.perm
    rw [refined, List.flatMap_assoc]
    apply List.Perm.flatMap_left p
    intro b _
    have h := Partition.perm_groups (b.members.map fun q => ((d.profile p q).toList, q))
    simpa [Function.comp_def] using h
  · intro b hb
    obtain ⟨a, ha, hba⟩ := List.mem_flatMap.mp hb
    exact Partition.groups_ascending (f := fun q => (d.profile p q).toList) (hp.ascending a ha) hba

theorem same_refined : (d.refined p).Same x y ↔ p.Same x y ∧ d.profile p x = d.profile p y := by
  have hgroups : (d.refined p).Same x y ↔
      ∃ b ∈ p, (Partition.groups (b.members.map fun q => ((d.profile p q).toList, q))).Same x y := by
    simp only [refined, Partition.Same, List.mem_flatMap]
    constructor
    · intro h
      obtain ⟨a, ⟨b, hb, ha⟩, h⟩ := h
      exact ⟨b, hb, a, ha, h⟩
    · intro h
      obtain ⟨b, hb, a, ha, h⟩ := h
      exact ⟨a, ⟨b, hb, ha⟩, h⟩
  rw [hgroups]
  simp only [Partition.same_groups (f := fun q => (d.profile p q).toList)]
  constructor
  · intro h
    obtain ⟨b, hb, hx, hy, h⟩ := h
    exact ⟨⟨b, hb, hx, hy⟩, Row.ext_toList h⟩
  · intro h
    obtain ⟨⟨b, hb, hx, hy⟩, h⟩ := h
    exact ⟨b, hb, hx, hy, by rw [h]⟩

theorem groups_ne_nil {σ : Type} [DecidableEq σ] (f : Nat → σ) (b : Block) :
    Partition.groups (b.members.map fun q => (f q, q)) ≠ [] := by
  rw [Block.members, List.map_cons, Partition.groups]
  exact List.cons_ne_nil _ _

theorem groups_eq_self {σ : Type} [DecidableEq σ] {f : Nat → σ} {b : Block}
    (h : (Partition.groups (b.members.map fun q => (f q, q))).length ≤ 1) :
    Partition.groups (b.members.map fun q => (f q, q)) = [b] := by
  rw [Block.members, List.map_cons, Partition.groups] at h ⊢
  -- no tag is left over, so all the other states have the tag of the first
  have hrest : Partition.untagged (f b.representative) (b.others.map fun q => (f q, q)) = [] := by
    cases hu : Partition.untagged (f b.representative) (b.others.map fun q => (f q, q)) with
    | nil => rfl
    | cons e es =>
      rw [hu, Partition.groups] at h
      simp at h
  have hall : Partition.tagged (f b.representative) (b.others.map fun q => (f q, q)) = b.others := by
    rw [Partition.untagged, List.filter_eq_nil_iff] at hrest
    rw [Partition.tagged, List.filter_eq_self.mpr fun e he => by simpa using hrest e he]
    simp [Function.comp_def]
  rw [hrest, hall, Partition.groups]

theorem refined_eq_self (h : (d.refined p).length ≤ p.length) : d.refined p = p := by
  unfold refined at h ⊢
  apply flatMap_eq_self ?_ ?_ h
  · intro b
    exact groups_ne_nil (fun q => (d.profile p q).toList) b
  · intro b hb
    exact groups_eq_self (f := fun q => (d.profile p q).toList) hb

theorem length_le_refined (d : Dfa) (p : Partition) : p.length ≤ (d.refined p).length :=
  length_le_flatMap (groups_ne_nil fun q => (d.profile p q).toList) p

theorem stabilize_eq (hd : d.Closed s) (hp : p.Divides s) :
    d.stabilize p = if p.length < (d.refined p).length then d.stabilize (d.refined p) else .ok (d.refined p) := by
  have hrefine := refine_eq hd hp
  rw [stabilize]
  split
  · rename_i e he
    rw [hrefine] at he
    cases he
  · rename_i next hnext
    rw [hrefine, Except.ok.injEq] at hnext
    rw [hnext]

theorem rounds_lt (hd : d.Closed s) (hp : p.Divides s) (h : p.length < (d.refined p).length) :
    (d.refined p).total - (d.refined p).length < p.total - p.length := by
  have htotal := total_refine (refine_eq hd hp)
  have hlength := (d.refined p).length_le_total
  omega

/-- What the rounds keep holds in the end, when one more round changes nothing. -/
theorem stabilize_induction (hd : d.Closed s) {motive : Partition → Prop}
    (hround : ∀ p, p.Divides s → motive p → motive (d.refined p)) (hp : p.Divides s) (h : motive p) :
    ∃ last, d.stabilize p = .ok last ∧ last.Divides s ∧ motive last ∧ d.refined last = last := by
  generalize hn : p.total - p.length = n
  induction n using Nat.strongRecOn generalizing p with
  | ind n ih =>
    rw [stabilize_eq hd hp]
    split
    · rename_i hlt
      have hless := rounds_lt hd hp hlt
      exact ih _ (hn ▸ hless) (divides_refined hp) (hround p hp h) rfl
    · rename_i hge
      have hself := refined_eq_self (Nat.le_of_not_lt hge)
      refine ⟨p, ?_, hp, h, hself⟩
      rw [hself]

/-- A closed set with the start, in which a state without a word has no other state beside it. -/
structure Trimmed (d : Dfa) (s : NatSet) : Prop extends d.Closed s where
  start : 0 ∈ s
  productive : ∀ x ∈ s, ∀ y ∈ s, x ≠ y → ∃ w, w ∈ d.residual x

/-- States with one language share a block, and the states of a block accept alike. -/
structure Separates (d : Dfa) (s : NatSet) (p : Partition) : Prop where
  together : ∀ x ∈ s, ∀ y ∈ s, d.residual x = d.residual y → p.Same x y
  accepts : ∀ x y, p.Same x y → d.accepts x = d.accepts y

theorem same_split : (d.split s).Same x y ↔ (x ∈ s ∧ y ∈ s) ∧ d.accepts x = d.accepts y := by
  have hblock : ∀ (qs : List Nat), (∃ b, Block.ofList? qs = some b ∧ x ∈ b.members ∧ y ∈ b.members) ↔
      x ∈ qs ∧ y ∈ qs := by
    intro qs
    cases qs with
    | nil => simp [Block.ofList?]
    | cons q qs => simp [Block.ofList?, Block.members]
  have hparts : (d.split s).Same x y ↔
      (x ∈ s.toList.filter d.accepts ∧ y ∈ s.toList.filter d.accepts) ∨
        (x ∈ s.toList.filter fun q => !d.accepts q) ∧ y ∈ s.toList.filter fun q => !d.accepts q := by
    rw [← hblock, ← hblock]
    simp only [split, Partition.Same, List.mem_filterMap, List.mem_cons, List.not_mem_nil, or_false]
    constructor
    · intro h
      obtain ⟨b, ⟨qs, rfl | rfl, hb⟩, h⟩ := h
      · exact Or.inl ⟨b, hb, h⟩
      · exact Or.inr ⟨b, hb, h⟩
    · intro h
      rcases h with ⟨b, hb, h⟩ | ⟨b, hb, h⟩
      · exact ⟨b, ⟨_, Or.inl rfl, hb⟩, h⟩
      · exact ⟨b, ⟨_, Or.inr rfl, hb⟩, h⟩
  rw [hparts]
  simp only [List.mem_filter, ← NatSet.mem_def]
  cases d.accepts x <;> cases d.accepts y <;> simp

theorem divides_split (d : Dfa) (s : NatSet) : (d.split s).Divides s := by
  have hmembers : ∀ qs : List Nat, ([qs].filterMap Block.ofList?).flatMap Block.members = qs := by
    intro qs
    cases qs <;> simp [Block.ofList?, Block.members]
  constructor
  · have hsplit : (d.split s).flatMap Block.members =
        s.toList.filter d.accepts ++ s.toList.filter fun q => !d.accepts q := by
      rw [split, ← List.singleton_append, List.filterMap_append, List.flatMap_append, hmembers, hmembers]
    rw [hsplit]
    exact List.filter_append_perm d.accepts s.toList
  · intro b hb
    rw [split, List.mem_filterMap] at hb
    obtain ⟨qs, hqs, hb⟩ := hb
    have hascending : qs.Pairwise (· < ·) := by
      rcases List.mem_cons.mp hqs with rfl | hqs
      · exact s.ascending.filter _
      · rw [List.mem_singleton.mp hqs]
        exact s.ascending.filter _
    cases qs with
    | nil => cases hb
    | cons q qs =>
      cases hb
      exact hascending

theorem separates_split (d : Dfa) (s : NatSet) : d.Separates s (d.split s) := by
  constructor
  · intro x hx y hy h
    exact same_split.mpr ⟨⟨hx, hy⟩, accepts_of_residual h⟩
  · intro x y h
    exact (same_split.mp h).2

/-- An edge of a state leads to a state with a word if there is another state with the same language. -/
theorem Trimmed.exists_mem_residual (hd : d.Trimmed s) (hx : x ∈ s) (hy : y ∈ s) (hxy : x ≠ y)
    (ht : d.next? x c = some t) : ∃ w, w ∈ d.residual t := by
  have hts : t ∈ s := hd.edges x hx c t ht
  by_cases htx : t = x
  · subst htx
    exact hd.productive t hts y hy hxy
  · exact hd.productive t hts x hx htx

section Separates

variable (hp : p.Divides s) (h : d.Separates s p)
include hp h

theorem Separates.next_index (hd : d.Trimmed s) (hx : x ∈ s) (hy : y ∈ s) (hxy : x ≠ y)
    (hres : d.residual x = d.residual y) (ht : d.next? x c = some t) :
    (d.next? y c).map p.index = some (p.index t) := by
  obtain ⟨w, hw⟩ := hd.exists_mem_residual hx hy hxy ht
  obtain ⟨u, hu, htu⟩ := next_of_residual hres ht hw
  have hts : t ∈ s := hd.edges x hx c t ht
  have hus : u ∈ s := hd.edges y hy c u hu
  rw [hu, Option.map_some, Option.some.injEq]
  exact ((hp.same_iff_index hts hus).mp (h.together t hts u hus htu)).symm

theorem Separates.profile_eq (hd : d.Trimmed s) (hx : x ∈ s) (hy : y ∈ s)
    (hres : d.residual x = d.residual y) : d.profile p x = d.profile p y := by
  by_cases hxy : x = y
  · rw [hxy]
  · apply profile_eq_iff.mpr
    intro c
    cases hx' : d.next? x c with
    | some t => rw [h.next_index hp hd hx hy hxy hres hx', Option.map_some]
    | none =>
      cases hy' : d.next? y c with
      | none => rfl
      | some t =>
        have hback := h.next_index hp hd hy hx (Ne.symm hxy) hres.symm hy'
        rw [hx'] at hback
        cases hback

theorem Separates.refined (hd : d.Trimmed s) : d.Separates s (d.refined p) := by
  constructor
  · intro x hx y hy hres
    exact same_refined.mpr ⟨h.together x hx y hy hres, h.profile_eq hp hd hx hy hres⟩
  · intro x y hxy
    exact h.accepts x y (same_refined.mp hxy).1

/-- When a round changes nothing, the states of a block have one language. -/
theorem Separates.residual_eq (hd : d.Closed s) (hlast : d.refined p = p) (hxy : p.Same x y) :
    d.residual x = d.residual y := by
  apply Language.ext
  intro w
  induction w generalizing x y with
  | nil => rw [nil_mem_residual, nil_mem_residual, h.accepts x y hxy]
  | cons c w ih =>
    have hmem := hp.mem_of_same hxy
    have hprofile := (same_refined.mp (hlast ▸ hxy)).2
    have hc := profile_eq_iff.mp hprofile c
    rw [cons_mem_residual, cons_mem_residual]
    cases hx : d.next? x c with
    | none =>
      rw [hx, Option.map_none, eq_comm, Option.map_eq_none_iff] at hc
      simp [hc]
    | some t =>
      rw [hx, Option.map_some, eq_comm, Option.map_eq_some_iff] at hc
      obtain ⟨u, hu, hut⟩ := hc
      have hsame : p.Same t u := (hp.same_iff_index (hd.edges x hmem.1 c t hx)
        (hd.edges y hmem.2 c u hu)).mpr hut.symm
      simpa [hu] using ih hsame

end Separates

/-- The blocks are the classes of states with one language. -/
def ByLanguage (d : Dfa) (s : NatSet) (p : Partition) : Prop :=
  ∀ x ∈ s, ∀ y ∈ s, p.Same x y ↔ d.residual x = d.residual y

theorem exists_stabilize_split (hd : d.Trimmed s) :
    ∃ p, d.stabilize (d.split s) = .ok p ∧ p.Divides s ∧ d.ByLanguage s p := by
  obtain ⟨p, hp, hdivides, hseparates, hlast⟩ := stabilize_induction hd.toClosed
    (motive := d.Separates s) (fun _ hq h => h.refined hq hd) (divides_split d s) (separates_split d s)
  refine ⟨p, hp, hdivides, ?_⟩
  intro x hx y hy
  exact ⟨hseparates.residual_eq hdivides hd.toClosed hlast, hseparates.together x hx y hy⟩

theorem ByLanguage.separates (hp : p.Divides s) (h : d.ByLanguage s p) : d.Separates s p := by
  constructor
  · intro x hx y hy hres
    exact (h x hx y hy).mpr hres
  · intro x y hxy
    obtain ⟨hx, hy⟩ := hp.mem_of_same hxy
    exact accepts_of_residual ((h x hx y hy).mp hxy)

theorem ByLanguage.profile_eq (hd : d.Trimmed s) (hp : p.Divides s) (h : d.ByLanguage s p)
    (hxy : p.Same x y) : d.profile p x = d.profile p y := by
  obtain ⟨hx, hy⟩ := hp.mem_of_same hxy
  exact (h.separates hp).profile_eq hp hd hx hy ((h x hx y hy).mp hxy)

end Dfa
end PatternAutomata
