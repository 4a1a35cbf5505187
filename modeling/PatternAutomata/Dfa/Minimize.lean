import PatternAutomata.Dfa.Basic

/-!
# Minimization

Only the live states matter: those that lie on the way from the start to an accepting state, and the
start itself. They are divided into blocks, accepting and rejecting ones first, and a block is split
as long as two of its states have edges into different blocks. In the end each block is a state.
-/

namespace PatternAutomata

set_option autoImplicit false

/-- Some states of one class; the first of them stands for all. -/
structure Block where
  representative : Nat
  others : List Nat
deriving DecidableEq

namespace Block

def members (b : Block) : List Nat := b.representative :: b.others

def size (b : Block) : Nat := b.members.length

theorem size_pos (b : Block) : 0 < b.size := Nat.succ_pos _

def ofList? : List Nat → Option Block
  | [] => none
  | q :: qs => some ⟨q, qs⟩

end Block

abbrev Partition := List Block

namespace Partition

def total (p : Partition) : Nat := (p.flatMap Block.members).length

theorem total_append (p q : Partition) : (p ++ q).total = p.total + q.total := by simp [total]

theorem total_cons (b : Block) (p : Partition) : total (b :: p) = b.size + p.total := by simp [total, Block.size]

theorem length_le_total (p : Partition) : p.length ≤ p.total := by
  induction p with
  | nil => exact Nat.le_refl 0
  | cons b p ih =>
    have := b.size_pos
    rw [total_cons, List.length_cons]
    omega

/-- For each state below `n`, the index of the block that holds it. -/
def classes (p : Partition) (n : Nat) : Array (Option Nat) :=
  p.zipIdx.foldl (fun table x => x.1.members.foldl (fun table q => table.setIfInBounds q (some x.2)) table)
    (Array.replicate n none)

/-- The states with a tag, and those with another one. -/
def tagged {σ : Type} [DecidableEq σ] (s : σ) (xs : List (σ × Nat)) : List Nat :=
  (xs.filter fun x => decide (x.1 = s)).map Prod.snd

def untagged {σ : Type} [DecidableEq σ] (s : σ) (xs : List (σ × Nat)) : List (σ × Nat) :=
  xs.filter fun x => decide (x.1 ≠ s)

theorem length_tagged_add_untagged {σ : Type} [DecidableEq σ] (s : σ) (xs : List (σ × Nat)) :
    (tagged s xs).length + (untagged s xs).length = xs.length := by
  have h := List.length_eq_countP_add_countP (fun x : σ × Nat => decide (x.1 = s)) (l := xs)
  simp only [List.countP_eq_length_filter, decide_eq_true_eq] at h
  simp only [tagged, untagged, List.length_map, ne_eq]
  omega

/-- Blocks of equally tagged states, in the order in which the tags appear. -/
def groups {σ : Type} [DecidableEq σ] : List (σ × Nat) → Partition
  | [] => []
  | (s, q) :: rest => ⟨q, tagged s rest⟩ :: groups (untagged s rest)
termination_by xs => xs.length
decreasing_by
  have := length_tagged_add_untagged s rest
  simp only [List.length_cons]
  omega

theorem total_groups {σ : Type} [DecidableEq σ] (xs : List (σ × Nat)) : (groups xs).total = xs.length := by
  fun_induction groups xs with
  | case1 => rfl
  | case2 s q rest ih =>
    have h := length_tagged_add_untagged s rest
    have hsize : (Block.mk q (tagged s rest)).size = (tagged s rest).length + 1 := rfl
    rw [total_cons, ih, List.length_cons, hsize]
    omega

end Partition

namespace Dfa

/-- A state whose class the division does not determine. -/
structure Inconsistent where
  state : Nat
deriving DecidableEq

def Inconsistent.message (e : Inconsistent) : String :=
  s!"state {e.state} is not consistently mapped to an equivalence class"

/-- The start, and the states between the start and an accepting state. -/
def live (d : Dfa) : NatSet :=
  let productive := d.graph.reverse.reach d.accepting.toList
  ((d.graph.reach [0]).filter fun q => decide (q ∈ productive)).insert 0

/-- The automaton without the edges that leave a set of states. -/
def restrict (d : Dfa) (s : NatSet) : Dfa :=
  { d with states := d.states.map fun x => { x with row := x.row.restrict s } }

/-- The edges of a state, with the class of each target instead of the target. -/
def signature (d : Dfa) (classes : Array (Option Nat)) (q : Nat) : Except Inconsistent (List (Char × Nat)) :=
  (d.row q).toList.mapM fun e =>
    match classes[e.2]? with
    | some (some i) => .ok (e.1, i)
    | _ => .error ⟨e.2⟩

def refineBlock (d : Dfa) (classes : Array (Option Nat)) (b : Block) : Except Inconsistent Partition :=
  if b.others = [] then .ok [b]
  else (b.members.mapM fun q => (d.signature classes q).map fun s => (s, q)).map Partition.groups

def refine (d : Dfa) (p : Partition) : Except Inconsistent Partition :=
  (p.mapM (d.refineBlock (p.classes d.size))).map List.flatten

theorem length_of_mapM {ε α β : Type} {f : α → Except ε β} {xs : List α} {ys : List β}
    (h : xs.mapM f = .ok ys) : ys.length = xs.length := by
  induction xs generalizing ys with
  | nil =>
    cases h
    rfl
  | cons x xs ih =>
    rw [List.mapM_cons] at h
    cases hx : f x with
    | error e => simp [hx, bind, Except.bind] at h
    | ok y =>
      cases hxs : xs.mapM f with
      | error e => simp [hx, hxs, bind, Except.bind] at h
      | ok zs =>
        simp only [hx, hxs, bind, Except.bind, pure, Except.pure, Except.ok.injEq] at h
        rw [← h, List.length_cons, List.length_cons, ih hxs]

theorem total_refineBlock {d : Dfa} {classes : Array (Option Nat)} {b : Block} {p : Partition}
    (h : d.refineBlock classes b = .ok p) : p.total = b.size := by
  rw [refineBlock] at h
  split at h
  · cases h
    exact Partition.total_cons b []
  · cases hm : b.members.mapM fun q => (d.signature classes q).map fun s => (s, q) with
    | error e =>
      rw [hm] at h
      cases h
    | ok tagged =>
      rw [hm] at h
      cases h
      rw [Partition.total_groups, length_of_mapM hm]
      rfl

theorem total_refine {d : Dfa} {p next : Partition} (h : d.refine p = .ok next) : next.total = p.total := by
  rw [refine] at h
  generalize p.classes d.size = classes at h
  induction p generalizing next with
  | nil =>
    cases h
    rfl
  | cons b p ih =>
    rw [List.mapM_cons] at h
    cases hb : d.refineBlock classes b with
    | error e => simp [hb, bind, Except.bind, Except.map] at h
    | ok q =>
      cases hp : p.mapM (d.refineBlock classes) with
      | error e => simp [hb, hp, bind, Except.bind, Except.map] at h
      | ok qs =>
        simp only [hb, hp, bind, Except.bind, pure, Except.pure, Except.map, Except.ok.injEq] at h ih
        rw [← h, List.flatten_cons, Partition.total_append, total_refineBlock hb, @ih qs.flatten rfl,
          Partition.total_cons]

/-- Refines a division until a round splits no block. -/
def stabilize (d : Dfa) (p : Partition) : Except Inconsistent Partition :=
  match _h : d.refine p with
  | .error e => .error e
  | .ok next => if p.length < next.length then stabilize d next else .ok next
termination_by p.total - p.length
decreasing_by
  have := total_refine _h
  have := next.length_le_total
  omega

def split (d : Dfa) (s : NatSet) : Partition :=
  [s.toList.filter d.accepts, s.toList.filter fun q => !d.accepts q].filterMap Block.ofList?

def agree (d : Dfa) (classes : Array (Option Nat)) (expected : List (Char × Nat)) :
    List Nat → Except Inconsistent Unit
  | [] => .ok ()
  | q :: qs =>
    (d.signature classes q).bind fun s => if s = expected then agree d classes expected qs else .error ⟨q⟩

/-- The state that a block becomes; all its members must have the signature of the first. -/
def blockState (d : Dfa) (classes : Array (Option Nat)) (b : Block) : Except Inconsistent State :=
  (d.signature classes b.representative).bind fun expected =>
    (d.agree classes expected b.others).map fun _ =>
      let key := NatSet.ofList b.members
      ⟨key, key.intersects d.accepting, .ofList expected⟩

/-- The automaton whose states are the blocks, in order of their first members. -/
def quotient (d : Dfa) (p : Partition) : Except Inconsistent Dfa :=
  let blocks := p.mergeSort fun a b => decide (a.representative ≤ b.representative)
  (blocks.mapM (d.blockState (Partition.classes blocks d.size))).map fun states => ⟨.classes, states.toArray⟩

/-- The automaton with the fewest states that accepts the same words. -/
def minimize (d : Dfa) : Except Inconsistent Dfa :=
  let e := d.restrict d.live
  (e.stabilize (e.split d.live)).bind e.quotient

end Dfa
end PatternAutomata
