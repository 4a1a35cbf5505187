import PatternAutomata.Dfa.Builder
import PatternAutomata.Proofs.Dfa.SetAutomaton

/-!
# Building automata

An automaton is built by entering keys, adding edges and marking states, in any order; a step that is
refused changes nothing. Whatever was done, the keys of the states are the entered keys in the order in
which they were entered first. The builder keeps a table of the numbers of the keys beside the states and
their names, and every step keeps the records in agreement: without them the same steps build the same
automaton.
-/

namespace PatternAutomata.Dfa

set_option autoImplicit false

variable {d : Dfa} {key k : NatSet} {q : Nat} {ks : List NatSet}

def keys (d : Dfa) : List NatSet := d.states.toList.map State.key

theorem length_keys (d : Dfa) : d.keys.length = d.size := by
  simp [keys, size]

theorem key?_eq (d : Dfa) (q : Nat) : d.key? q = d.keys[q]? := by
  simp [key?, keys]

theorem find?_eq (d : Dfa) (key : NatSet) : d.find? key = d.keys.idxOf? key := by
  obtain ⟨kind, ⟨states⟩⟩ := d
  simp only [find?, keys, List.findIdx?_toArray, List.idxOf?, List.findIdx?_map]
  rfl

theorem find?_eq_some (hd : d.keys.Nodup) : d.find? key = some q ↔ d.key? q = some key := by
  rw [find?_eq, key?_eq, SetMachine.idxOf?_eq_some hd]

theorem mem_keys_of_find? (h : d.find? key = some q) : key ∈ d.keys := by
  rw [find?_eq] at h
  exact List.isSome_idxOf?.mp (Option.isSome_of_eq_some h)

theorem not_mem_keys_of_find? (h : d.find? key = none) : key ∉ d.keys := by
  rwa [find?_eq, List.idxOf?_eq_none_iff] at h

theorem enter_of_find? (h : d.find? key = some q) : d.enter key = (d, q, false) := by
  simp only [enter, h]

theorem enter_of_new (h : d.find? key = none) :
    d.enter key = ({ d with states := d.states.push (.fresh key) }, d.size, true) := by
  simp only [enter, h]

theorem keys_enter (d : Dfa) (key : NatSet) :
    (d.enter key).1.keys = if key ∈ d.keys then d.keys else d.keys ++ [key] := by
  cases h : d.find? key with
  | none =>
    rw [enter_of_new h, if_neg (not_mem_keys_of_find? h)]
    simp [keys, State.fresh]
  | some q => rw [enter_of_find? h, if_pos (mem_keys_of_find? h)]

/-- What can be done to an automaton while it is built. -/
inductive Step where
  | enter (key : NatSet)
  | addEdge (source : Nat) (c : Char) (target : Nat)
  | setAccept (q : Nat) (accept : Bool)

def Step.key? : Step → Option NatSet
  | enter key => some key
  | addEdge _ _ _ => none
  | setAccept _ _ => none

/-- The automaton behind a step, which is the same if the step is refused. -/
def apply (d : Dfa) : Step → Dfa
  | .enter key => (d.enter key).1
  | .addEdge source c target => (d.addEdge? source c target).getD d
  | .setAccept q accept => (d.setAccept? q accept).getD d

/-- The automaton that steps build behind a start with a given key. -/
def build (kind : KeyKind) (key : NatSet) (steps : List Step) : Dfa := steps.foldl apply (single kind key)

/-- The keys that are entered, the start's first. -/
def entered (key : NatSet) (steps : List Step) : List NatSet := key :: steps.filterMap Step.key?

theorem keys_modify (d : Dfa) (q : Nat) (f : State → State) (hf : ∀ s, (f s).key = s.key) :
    keys { d with states := d.states.modify q f } = d.keys := by
  apply List.ext_getElem?
  intro i
  simp only [keys, List.getElem?_map, Array.getElem?_toList, Array.getElem?_modify]
  split
  · simp [Function.comp_def, hf]
  · rfl

theorem eraseDups_concat {α : Type} [DecidableEq α] (ks : List α) (k : α) :
    (ks ++ [k]).eraseDups = if k ∈ ks then ks.eraseDups else ks.eraseDups ++ [k] := by
  rw [List.eraseDups_append]
  by_cases h : k ∈ ks
  · simp [List.removeAll, h]
  · simp [List.removeAll, h, List.eraseDups_cons]

theorem keys_addEdge (d : Dfa) (source : Nat) (c : Char) (target : Nat) :
    ((d.addEdge? source c target).getD d).keys = d.keys := by
  rw [addEdge?]
  split
  · exact keys_modify d source _ fun s => rfl
  · rfl

theorem keys_setAccept (d : Dfa) (q : Nat) (accept : Bool) : ((d.setAccept? q accept).getD d).keys = d.keys := by
  rw [setAccept?]
  split
  · exact keys_modify d q _ fun s => rfl
  · rfl

theorem keys_apply (hd : d.keys = ks.eraseDups) (x : Step) :
    (d.apply x).keys = (ks ++ x.key?.toList).eraseDups := by
  cases x with
  | enter key =>
    have h := keys_enter d key
    simp only [hd, List.mem_eraseDups, ← eraseDups_concat] at h
    exact h
  | addEdge source c target =>
    rw [Step.key?, Option.toList_none, List.append_nil, ← hd]
    exact keys_addEdge d source c target
  | setAccept q accept =>
    rw [Step.key?, Option.toList_none, List.append_nil, ← hd]
    exact keys_setAccept d q accept

theorem keys_foldl (hd : d.keys = ks.eraseDups) (steps : List Step) :
    (steps.foldl apply d).keys = (ks ++ steps.filterMap Step.key?).eraseDups := by
  induction steps generalizing d ks with
  | nil => simpa using hd
  | cons x steps ih =>
    rw [List.foldl_cons, ih (keys_apply hd x), List.append_assoc]
    cases hx : x.key? with
    | none => simp [hx]
    | some key => simp [hx]

theorem keys_build (kind : KeyKind) (key : NatSet) (steps : List Step) :
    (build kind key steps).keys = (entered key steps).eraseDups := by
  have hstart : (single kind key).keys = [key].eraseDups := rfl
  exact keys_foldl hstart steps

theorem lookup_zipIdx {α : Type} [DecidableEq α] (ks : List α) (k : α) (i : Nat) :
    (ks.zipIdx i).lookup k = (ks.idxOf? k).map (· + i) := by
  induction ks generalizing i with
  | nil => rfl
  | cons x ks ih =>
    rw [List.zipIdx_cons, List.lookup_cons, List.idxOf?_cons, ih]
    by_cases h : k = x
    · simp [h]
    · simp [beq_eq_false_iff_ne.mpr h, Ne.symm h, Function.comp_def, Nat.add_comm, Nat.add_left_comm]

namespace Builder

variable {b : Builder}

/-- The table has the number of every state under its key and no other numbers, and the states have the names of
their numbers. -/
structure Agrees (b : Builder) : Prop where
  find_iff : ∀ k q, b.find? k = some q ↔ b.key? q = some k
  name_eq : ∀ q, b.name? q = if q < b.size then some (stateName q) else none

theorem agrees_empty (kind : KeyKind) : Agrees ⟨kind, #[], []⟩ := by
  constructor
  · intro k q
    simp [find?, key?]
  · intro q
    simp [name?, size]

theorem enter_of_find? (h : b.find? key = some q) : b.enter key = (b, q, false) := by
  simp only [enter, h]

def entering (b : Builder) (key : NatSet) : Builder :=
  { b with states := b.states.push ⟨.fresh key, stateName b.size⟩, table := (key, b.size) :: b.table }

theorem enter_of_new (h : b.find? key = none) : b.enter key = (b.entering key, b.size, true) := by
  simp only [enter, h, entering]

theorem size_entering (b : Builder) (key : NatSet) : (b.entering key).size = b.size + 1 := by
  simp [entering, size]

theorem states_entering (b : Builder) (key : NatSet) (q : Nat) :
    (b.entering key).states[q]? = if q = b.size then some ⟨.fresh key, stateName b.size⟩ else b.states[q]? := by
  rw [entering, Array.getElem?_push]
  rfl

theorem key?_entering (b : Builder) (key : NatSet) (q : Nat) :
    (b.entering key).key? q = if q = b.size then some key else b.key? q := by
  rw [key?, states_entering]
  split
  · rfl
  · rfl

theorem name?_entering (b : Builder) (key : NatSet) (q : Nat) :
    (b.entering key).name? q = if q = b.size then some (stateName b.size) else b.name? q := by
  rw [name?, states_entering]
  split
  · rfl
  · rfl

theorem find?_entering (b : Builder) (key k : NatSet) :
    (b.entering key).find? k = if k = key then some b.size else b.find? k := by
  rw [find?, entering, List.lookup_cons]
  by_cases h : k = key
  · rw [if_pos h, h, beq_self_eq_true]
  · rw [if_neg h, beq_eq_false_iff_ne.mpr h]
    rfl

theorem key?_of_le (b : Builder) (hq : b.size ≤ q) : b.key? q = none := by
  rw [key?, Array.getElem?_eq_none hq, Option.map_none]

theorem Agrees.entering (hb : b.Agrees) (h : b.find? key = none) : (b.entering key).Agrees := by
  constructor
  · intro k q
    rw [find?_entering, key?_entering]
    by_cases hk : k = key
    · subst hk
      have hold : b.key? q ≠ some k := fun hkey => by simp [(hb.find_iff k q).mpr hkey] at h
      by_cases hq : q = b.size
      · simp [hq]
      · simp [hq, Ne.symm hq, hold]
    · by_cases hq : q = b.size
      · -- the table has no number for the place behind the last state yet
        have hnone : b.find? k ≠ some q := fun hfind => by
          simpa [key?_of_le b (Nat.le_of_eq hq.symm)] using (hb.find_iff k q).mp hfind
        simp [hk, hq ▸ hnone, hq, Ne.symm hk]
      · rw [if_neg hk, if_neg hq, hb.find_iff]
  · intro q
    rw [name?_entering, hb.name_eq, size_entering]
    by_cases hq : q = b.size
    · rw [if_pos hq, if_pos (by omega), hq]
    · have hlt : q < b.size + 1 ↔ q < b.size := by omega
      simp only [if_neg hq, hlt]

theorem Agrees.enter (hb : b.Agrees) (key : NatSet) : (b.enter key).1.Agrees := by
  cases h : b.find? key with
  | some q => rwa [enter_of_find? h]
  | none =>
    rw [enter_of_new h]
    exact hb.entering h

/-- What is done to a state that keeps its key and its name does not touch the records. -/
theorem Agrees.modify (hb : b.Agrees) (source : Nat) {f : NamedState → NamedState}
    (hkey : ∀ s, (f s).key = s.key) (hname : ∀ s, (f s).name = s.name) :
    Agrees { b with states := b.states.modify source f } := by
  constructor
  · intro k q
    refine (hb.find_iff k q).trans ?_
    simp only [key?, Array.getElem?_modify]
    split
    · simp [Function.comp_def, hkey]
    · rfl
  · intro q
    have hsize : size { b with states := b.states.modify source f } = b.size := Array.size_modify
    rw [hsize, ← hb.name_eq]
    simp only [name?, Array.getElem?_modify]
    split
    · simp [Function.comp_def, hname]
    · rfl

def apply (b : Builder) : Step → Builder
  | .enter key => (b.enter key).1
  | .addEdge source c target => (b.addEdge? source c target).getD b
  | .setAccept q accept => (b.setAccept? q accept).getD b

def build (kind : KeyKind) (key : NatSet) (steps : List Step) : Builder := steps.foldl apply (start kind key)

theorem Agrees.apply (hb : b.Agrees) (x : Step) : (b.apply x).Agrees := by
  cases x with
  | enter key => exact hb.enter key
  | addEdge source c target =>
    rw [Builder.apply, addEdge?]
    split
    · exact hb.modify source (fun _ => rfl) fun _ => rfl
    · exact hb
  | setAccept q accept =>
    rw [Builder.apply, setAccept?]
    split
    · exact hb.modify q (fun _ => rfl) fun _ => rfl
    · exact hb

theorem Agrees.foldl (hb : b.Agrees) (steps : List Step) : (steps.foldl Builder.apply b).Agrees := by
  induction steps generalizing b with
  | nil => exact hb
  | cons x steps ih => exact ih (hb.apply x)

theorem agrees_start (kind : KeyKind) (key : NatSet) : (start kind key).Agrees := (agrees_empty kind).enter key

theorem agrees_build (kind : KeyKind) (key : NatSet) (steps : List Step) : (build kind key steps).Agrees :=
  (agrees_start kind key).foldl steps

theorem size_toDfa (b : Builder) : b.toDfa.size = b.size := by
  simp [toDfa, Dfa.size, size]

theorem key?_toDfa (b : Builder) (q : Nat) : b.toDfa.key? q = b.key? q := by
  simp [toDfa, Dfa.key?, key?, Function.comp_def]

theorem toDfa_modify (b : Builder) (q : Nat) {f : NamedState → NamedState} {g : State → State}
    (h : ∀ s, (f s).toState = g s.toState) :
    toDfa { b with states := b.states.modify q f } = { b.toDfa with states := b.toDfa.states.modify q g } := by
  apply congrArg (Dfa.mk b.kind)
  apply Array.ext_getElem?
  intro i
  simp only [toDfa, Array.getElem?_map, Array.getElem?_modify]
  split
  · simp [Function.comp_def, h]
  · rfl

namespace Agrees

variable (hb : b.Agrees)
include hb

theorem nodup_keys : b.toDfa.keys.Nodup := by
  apply List.pairwise_iff_getElem.mpr
  intro i j hi hj hij heq
  have hfind : ∀ q (hq : q < b.toDfa.keys.length), b.find? b.toDfa.keys[q] = some q := by
    intro q hq
    rw [hb.find_iff, ← key?_toDfa, key?_eq, List.getElem?_eq_getElem hq]
  have hsame := hfind i hi
  rw [heq, hfind j hj] at hsame
  exact absurd (Option.some.inj hsame) (Nat.ne_of_gt hij)

theorem find?_eq (key : NatSet) : b.find? key = b.toDfa.find? key := by
  apply Option.ext
  intro q
  rw [hb.find_iff, find?_eq_some hb.nodup_keys, key?_toDfa]

theorem name?_eq (q : Nat) : b.name? q = b.toDfa.name? q := by
  rw [hb.name_eq, Dfa.name?, size_toDfa]

theorem toDfa_enter (key : NatSet) : b.toDfa.enter key = ((b.enter key).1.toDfa, (b.enter key).2) := by
  have hfind := hb.find?_eq key
  cases h : b.find? key with
  | some q => rw [enter_of_find? h, Dfa.enter_of_find? (hfind.symm.trans h)]
  | none =>
    rw [enter_of_new h, Dfa.enter_of_new (hfind.symm.trans h), size_toDfa]
    simp [toDfa, Builder.entering]

theorem toDfa_apply (x : Step) : (b.apply x).toDfa = b.toDfa.apply x := by
  cases x with
  | enter key => rw [Builder.apply, Dfa.apply, hb.toDfa_enter]
  | addEdge source c target =>
    rw [Builder.apply, Dfa.apply, addEdge?, Dfa.addEdge?, size_toDfa]
    split
    · exact toDfa_modify b source fun _ => rfl
    · rfl
  | setAccept q accept =>
    rw [Builder.apply, Dfa.apply, setAccept?, Dfa.setAccept?, size_toDfa]
    split
    · exact toDfa_modify b q fun _ => rfl
    · rfl

theorem toDfa_foldl (steps : List Step) : (steps.foldl Builder.apply b).toDfa = steps.foldl Dfa.apply b.toDfa := by
  induction steps generalizing b with
  | nil => rfl
  | cons x steps ih => rw [List.foldl_cons, ih (hb.apply x), hb.toDfa_apply, List.foldl_cons]

end Agrees

theorem toDfa_build (kind : KeyKind) (key : NatSet) (steps : List Step) :
    (build kind key steps).toDfa = Dfa.build kind key steps := by
  have hstart : (start kind key).toDfa = single kind key := by
    simp [start, enter, find?, toDfa, single]
  rw [build, (agrees_start kind key).toDfa_foldl steps, hstart, Dfa.build]

/-- The states are numbered as a list of keys enters them, and both records say so: the table finds the number of
a key, and the state of the number has the key and the number's name. Entering one of the keys again changes
nothing, and a new key changes none of the states that are there. A step is refused when the state it names
has no key. -/
structure Numbers (b : Builder) (ks : List NatSet) : Prop where
  size_eq : b.size = ks.eraseDups.length
  key_eq : ∀ q, b.key? q = ks.eraseDups[q]?
  find_iff : ∀ k q, b.find? k = some q ↔ b.key? q = some k
  name_eq : ∀ q, b.name? q = if q < b.size then some (stateName q) else none
  enter_known : ∀ k q, b.find? k = some q → b.enter k = (b, q, false)
  enter_new : ∀ k, b.find? k = none →
    ∃ e, b.enter k = (e, b.size, true) ∧ e.size = b.size + 1 ∧ e.find? k = some b.size ∧
      e.states[b.size]? = some ⟨.fresh k, stateName b.size⟩ ∧ ∀ q, q < b.size → e.states[q]? = b.states[q]?
  edge_refused : ∀ source c target, b.addEdge? source c target = none ↔ ∀ k, b.find? k ≠ some source
  accept_refused : ∀ q accept, b.setAccept? q accept = none ↔ ∀ k, b.find? k ≠ some q

theorem Agrees.exists_find?_iff (hb : b.Agrees) : (∃ k, b.find? k = some q) ↔ q < b.size := by
  simp only [hb.find_iff]
  rw [← Option.isSome_iff_exists, key?, Option.isSome_map, Option.isSome_iff_ne_none, Ne,
    Array.getElem?_eq_none_iff, Nat.not_le]
  rfl

theorem Agrees.refused_iff (hb : b.Agrees) (q : Nat) (e : Builder) :
    (if q < b.size then some e else none) = none ↔ ∀ k, b.find? k ≠ some q := by
  rw [← not_exists, hb.exists_find?_iff]
  simp

theorem Agrees.numbers (hb : b.Agrees) (h : b.toDfa.keys = ks.eraseDups) : b.Numbers ks := by
  have hsize : b.size = ks.eraseDups.length := by
    rw [← size_toDfa, ← length_keys, h]
  refine ⟨hsize, ?_, hb.find_iff, hb.name_eq, fun k q => enter_of_find?, ?_, fun source _ _ => hb.refused_iff source _,
    fun q _ => hb.refused_iff q _⟩
  · intro q
    rw [← key?_toDfa, key?_eq, h]
  · intro k hk
    refine ⟨b.entering k, enter_of_new hk, size_entering b k, ?_, ?_, ?_⟩
    · rw [find?_entering, if_pos rfl]
    · rw [states_entering, if_pos rfl]
    · intro q hq
      rw [states_entering, if_neg (Nat.ne_of_lt hq)]

/-- Whatever steps build, the states are numbered as the keys were entered, and the automaton is the one that the
steps build without the records: what is recorded can be found in it. -/
theorem build_numbers_keys (kind : KeyKind) (key : NatSet) (steps : List Step) :
    (build kind key steps).Numbers (entered key steps) ∧
      (build kind key steps).toDfa = Dfa.build kind key steps ∧
      (∀ k, (build kind key steps).find? k = (Dfa.build kind key steps).find? k) ∧
      ∀ q, (build kind key steps).key? q = (Dfa.build kind key steps).key? q ∧
        (build kind key steps).name? q = (Dfa.build kind key steps).name? q := by
  have hb := agrees_build kind key steps
  have hdfa := toDfa_build kind key steps
  refine ⟨hb.numbers ?_, hdfa, ?_, ?_⟩
  · rw [hdfa, keys_build]
  · intro k
    rw [hb.find?_eq, hdfa]
  · intro q
    rw [← key?_toDfa, hb.name?_eq, hdfa]
    exact ⟨rfl, rfl⟩

end Builder
end PatternAutomata.Dfa
