import PatternAutomata.Discovery
import PatternAutomata.Regex.Positions

/-!
# The automaton of the positions of a term

A term with an end mark behind it has an automaton whose states are the sets of positions that can
match the next symbol. The start holds the positions that begin a word, a symbol leads to all that
can follow a position with this symbol, and a state accepts if it holds the end mark's position.
-/

namespace PatternAutomata

set_option autoImplicit false

namespace Regex

/-- The character at a position, with the positions that can follow it. -/
def charAt? (slots : Array (Letter × NatSet)) (p : Nat) : Option (Char × NatSet) :=
  match p with
  | 0 => none
  | i + 1 => (slots[i]?).bind fun x => x.1.char?.map fun c => (c, x.2)

def slots (r : Regex Letter) : Array (Letter × NatSet) :=
  let pairs := r.linearize.links
  ((r.leaves.zipIdx 1).map fun x => (x.1, followers pairs x.2)).toArray

/-- What can follow the positions of a set that hold the character. -/
def advance (slots : Array (Letter × NatSet)) (s : NatSet) (c : Char) : NatSet :=
  NatSet.unions (s.toList.filterMap fun p =>
    (charAt? slots p).bind fun x => if x.1 = c then some x.2 else none)

theorem mem_advance {slots : Array (Letter × NatSet)} {s : NatSet} {c : Char} {q : Nat} :
    q ∈ advance slots s c ↔ ∃ p ∈ s, ∃ next, charAt? slots p = some (c, next) ∧ q ∈ next := by
  rw [advance, NatSet.mem_unions]
  simp only [List.mem_filterMap, Option.bind_eq_some_iff, Option.ite_none_right_eq_some, Option.some.injEq,
    ← NatSet.mem_def]
  constructor
  · rintro ⟨_, ⟨p, hp, ⟨d, next⟩, hx, rfl, rfl⟩, hq⟩
    exact ⟨p, hp, next, hx, hq⟩
  · rintro ⟨p, hp, next, hx, hq⟩
    exact ⟨next, ⟨p, hp, (c, next), hx, rfl, rfl⟩, hq⟩

theorem charAt?_slots {r : Regex Letter} {p : Nat} {c : Char} {next : NatSet} :
    charAt? r.slots p = some (c, next) ↔ r.leafAt? p = some (.char c) ∧ next = r.linearize.follow p := by
  cases p with
  | zero => simp [charAt?, leafAt?]
  | succ i =>
    have hslot : r.slots[i]? = (r.leaves[i]?).map fun l => (l, r.linearize.follow (i + 1)) := by
      simp only [slots, List.getElem?_toArray, List.getElem?_map, List.getElem?_zipIdx, Option.map_map, follow,
        Nat.add_comm 1 i]
      rfl
    rw [charAt?, hslot, leafAt?, if_neg (Nat.succ_ne_zero i), Nat.add_sub_cancel]
    cases r.leaves[i]? with
    | none => simp
    | some l => cases l <;> simp [Letter.char?, eq_comm]

theorem le_width_of_advance {r : Regex Letter} {s : NatSet} {c : Char} {q : Nat}
    (h : q ∈ advance r.slots s c) : q ≤ r.width := by
  obtain ⟨p, _, next, hx, hq⟩ := mem_advance.mp h
  obtain ⟨_, rfl⟩ := charAt?_slots.mp hx
  exact (mem_leaves_linearize.mp (mem_leaves_of_follow hq)).2

/-- The machine of the positions of a term, accepting with `finish`. -/
def positionMachine (r : Regex Letter) (finish : Nat) : SetMachine :=
  let slots := r.slots
  { start := r.linearize.attributes.first
    next := fun s c => (advance slots s c).nonempty?
    accepts := fun s => decide (finish ∈ s)
    alphabet := alphabetOf (r.leaves.filterMap Letter.char?)
    bound := r.width + 1
    next_lt := fun h _ hq => by
      obtain ⟨rfl, _⟩ := NatSet.nonempty?_eq_some.mp h
      exact Nat.lt_succ_of_le (le_width_of_advance hq) }

end Regex

def Dfa.ofTerm (r : Regex Letter) : Except Malformed Dfa :=
  match r.endPosition? with
  | none => .error .noEndMark
  | some finish => .ok ((r.positionMachine finish).toDfa .positions)

/-- A postfix expression with the end mark concatenated behind it. -/
def Postfix.withEndMark (tokens : List Token) : List Token := tokens ++ [.letter .endMark, .operator .concat]

/-- The automaton of the positions of a postfix expression; the end mark is reserved. -/
def Dfa.ofPostfix (tokens : List Token) : Except Malformed Dfa :=
  if tokens = [] then .error .empty
  else if Token.letter .endMark ∈ tokens then .error .reservedEndMark
  else (Regex.ofPostfix (Postfix.withEndMark tokens)).bind Dfa.ofTerm

end PatternAutomata
