import PatternAutomata.NatSet

/-!
# Alphabets

The distinct characters of a list, ordered by code point.
-/

namespace PatternAutomata

set_option autoImplicit false

/-- The characters of a list in ascending order, each of them once. -/
def alphabetOf (cs : List Char) : List Char := (NatSet.ofList (cs.map Char.toNat)).toList.map Char.ofNat

@[simp] theorem mem_alphabetOf {c : Char} {cs : List Char} : c ∈ alphabetOf cs ↔ c ∈ cs := by
  simp only [alphabetOf, List.mem_map, ← NatSet.mem_def, NatSet.mem_ofList]
  constructor
  · rintro ⟨n, ⟨d, hd, rfl⟩, rfl⟩
    rwa [Char.ofNat_toNat]
  · exact fun h => ⟨c.toNat, ⟨c, h, rfl⟩, Char.ofNat_toNat c⟩

theorem alphabetOf_ascending (cs : List Char) :
    (alphabetOf cs).Pairwise fun a b => a.toNat < b.toNat := by
  rw [alphabetOf, List.pairwise_map]
  refine (NatSet.ofList (cs.map Char.toNat)).ascending.imp_of_mem fun {a b} ha hb hab => ?_
  obtain ⟨c, _, rfl⟩ := List.mem_map.mp (NatSet.mem_ofList.mp ha)
  obtain ⟨d, _, rfl⟩ := List.mem_map.mp (NatSet.mem_ofList.mp hb)
  rwa [Char.ofNat_toNat, Char.ofNat_toNat]

end PatternAutomata
