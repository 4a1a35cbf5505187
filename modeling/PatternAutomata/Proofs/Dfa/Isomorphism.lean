import PatternAutomata.Proofs.Dfa.Minimality

/-!
# The minimal automaton is unique

In a reduced automaton all states can be reached, every one of them has a word of its own language,
and no two have the same language. Two reduced automata for one language are isomorphic: a state goes
to the one with the same language. Minimization gives a reduced automaton as soon as some word is
accepted, so nothing but the language of an automaton shows in the result, up to the numbers of the
states.
-/

namespace PatternAutomata.Dfa

set_option autoImplicit false

variable {d e m : Dfa} {f : Nat → Nat} {p q : Nat}

/-- A one-to-one map of the states onto those of another automaton that keeps the start, acceptance and
all edges, missing ones included. -/
structure Isomorphism (d e : Dfa) (f : Nat → Nat) : Prop extends Quotient d e f where
  injective : ∀ p q, p < d.size → q < d.size → f p = f q → p = q

/-- All states can be reached, a word is accepted from each of them, and they have different languages. -/
structure Reduced (d : Dfa) : Prop extends d.InRange where
  accessible : ∀ q, q < d.size → ∃ w, d.machine.Leads w q
  productive : d.Productive
  distinct : ∀ p q, p < d.size → q < d.size → d.residual p = d.residual q → p = q

namespace Reduced

theorem exists_residual_eq (hd : d.Reduced) (he : e.InRange) (hlang : d.language = e.language)
    (hp : p < d.size) : ∃ q, q < e.size ∧ d.residual p = e.residual q := by
  obtain ⟨u, hu⟩ := hd.accessible p hp
  obtain ⟨w, hw⟩ := hd.productive p hp
  obtain ⟨q, hq, hres⟩ := walk_of_residual hlang hu hw
  exact ⟨q, he.leads_lt hq, hres⟩

section Pair

variable (hd : d.Reduced) (he : e.Reduced)
include hd he

theorem next?_of_residual (hres : ∀ p, p < d.size → f p < e.size ∧ d.residual p = e.residual (f p))
    (hq : q < d.size) (c : Char) : e.next? (f q) c = (d.next? q c).map f := by
  have hqres := (hres q hq).2
  cases ht : d.next? q c with
  | none =>
    apply Option.eq_none_iff_forall_ne_some.mpr
    intro t he'
    obtain ⟨w, hw⟩ := he.productive t (he.targets_lt _ c t he')
    obtain ⟨x, hx, _⟩ := next_of_residual hqres.symm he' hw
    rw [ht] at hx
    cases hx
  | some t =>
    have htlt := hd.targets_lt q c t ht
    obtain ⟨w, hw⟩ := hd.productive t htlt
    obtain ⟨x, hx, htx⟩ := next_of_residual hqres ht hw
    have hsame : e.residual x = e.residual (f t) := htx.symm.trans (hres t htlt).2
    rw [hx, Option.map_some, he.distinct x (f t) (he.targets_lt _ c x hx) (hres t htlt).1 hsame]

theorem isomorphism_of_residual (hlang : d.language = e.language)
    (hres : ∀ p, p < d.size → f p < e.size ∧ d.residual p = e.residual (f p)) : Isomorphism d e f := by
  refine ⟨⟨?start, ?maps, ?onto, ?accepts, ?next⟩, ?injective⟩
  case start =>
    obtain ⟨hlt, hstart⟩ := hres 0 hd.nonempty
    exact he.distinct (f 0) 0 hlt he.nonempty (hstart.symm.trans hlang)
  case maps =>
    intro q hq
    exact (hres q hq).1
  case onto =>
    intro t ht
    obtain ⟨q, hq, htq⟩ := he.exists_residual_eq hd.toInRange hlang.symm ht
    obtain ⟨hlt, hqf⟩ := hres q hq
    exact ⟨q, hq, he.distinct (f q) t hlt ht (hqf.symm.trans htq.symm)⟩
  case accepts =>
    intro q hq
    exact (accepts_of_residual (hres q hq).2).symm
  case next =>
    intro q hq c
    exact hd.next?_of_residual he hres hq c
  case injective =>
    intro p q hp hq hpq
    apply hd.distinct p q hp hq
    rw [(hres p hp).2, (hres q hq).2, hpq]

theorem exists_isomorphism (hlang : d.language = e.language) : ∃ f, Isomorphism d e f := by
  have hexists : ∀ p, p < d.size → ∃ q, q < e.size ∧ d.residual p = e.residual q :=
    fun p hp => hd.exists_residual_eq he.toInRange hlang hp
  choose! f hf using hexists
  exact ⟨f, hd.isomorphism_of_residual he hlang hf⟩

end Pair

end Reduced

theorem Collapse.reduced (hd : d.InRange) (hm : Collapse (d.restrict d.live) d.live m f)
    (hword : ∃ w, w ∈ d.language) : m.Reduced := by
  have hrange := hm.inRange (trimmed_live hd).toClosed (start_mem_live hd)
  refine ⟨hrange, fun _ hq => hm.accessible hd hq, ?_, fun _ _ hp hq => hm.distinct hd hp hq⟩
  intro q hq
  by_cases hstart : q = 0
  · subst hstart
    rwa [← hm.language_eq hd] at hword
  · exact hm.productive hd hq hstart

/-- Two automata, one of which accepts a word, accept the same words exactly if minimization makes
isomorphic automata of them, whatever states and edges they have besides. -/
theorem minimize_isomorphic_iff (hd : d.InRange) (he : e.InRange) (hword : ∃ w, d.isMatch w = true) :
    ∃ m k, d.minimize = .ok m ∧ e.minimize = .ok k ∧
      ((∀ w, d.isMatch w = e.isMatch w) ↔ ∃ f, Isomorphism m k f) := by
  obtain ⟨m, _, hminimize, hm⟩ := exists_minimize hd
  obtain ⟨k, _, hminimize', hk⟩ := exists_minimize he
  have hlang : m.language = d.language := hm.language_eq hd
  have hlang' : k.language = e.language := hk.language_eq he
  refine ⟨m, k, hminimize, hminimize', ?_⟩
  rw [← language_eq_iff, ← hlang, ← hlang']
  constructor
  · intro h
    have hmword : ∃ w, w ∈ d.language := hword.imp fun _ hw => isMatch_iff.mp hw
    have hkword : ∃ w, w ∈ e.language := by rwa [← hlang', ← h, hlang]
    exact (hm.reduced hd hmword).exists_isomorphism (hk.reduced he hkword) h
  · intro h
    obtain ⟨f, hf⟩ := h
    have hrange := hm.inRange (trimmed_live hd).toClosed (start_mem_live hd)
    apply language_eq_iff.mpr
    intro w
    exact congrArg Run.accepted (hf.run hrange w).symm

theorem minimize_isomorphic_iff_cycle_loop :
    ∃ m k f, cycle.minimize = .ok m ∧ loop.minimize = .ok k ∧ Isomorphism m k f := by
  have hword : ∃ w, cycle.isMatch w = true := ⟨[], by decide⟩
  obtain ⟨m, k, hm, hk, hiff⟩ := minimize_isomorphic_iff (d := cycle) (e := loop) (by decide) (by decide) hword
  have hwords : ∀ w, cycle.isMatch w = loop.isMatch w := fun w =>
    congrArg Run.accepted (quotient_cycle_loop.run (by decide) w).symm
  obtain ⟨f, hf⟩ := hiff.mp hwords
  exact ⟨m, k, f, hm, hk, hf⟩

end PatternAutomata.Dfa
