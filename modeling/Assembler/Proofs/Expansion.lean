import Assembler.Proofs.Operation
import Mathlib.Algebra.Ring.Nat
import Mathlib.Data.List.Basic
import Mathlib.Logic.Relation
/-!
Substitution of spaces, one term after another.

Lengths may also be put in with a stack: its top is a space without a length, and then it is left, or it has one
and the spaces of that take its place on the stack (`Unfolding.step?`). As no length is in terms of its own space in
the end, the stack gets empty whatever it starts from (`Unfolding.wellFounded_steps`), and what is left then is what
`Spaces.substitute` gives (`Unfolding.substitute_of_run`).
-/

namespace Assembler

/-! ## 1. Lengths that mention spaces -/

namespace Spaces

variable {a : Spaces} {s t : SpaceId}

/-- Whether a space has a length that another space occurs in. -/
def Mentions (a : Spaces) (s t : SpaceId) : Prop :=
  ∃ length, a.length? s = some length ∧ t ∈ length.spaces.map Prod.fst

theorem Ranked.lt_of_path {rank : SpaceId → Nat} (hr : a.Ranked rank)
    (hpath : Relation.TransGen a.Mentions s t) (ht : a.isResolved t) : rank t < rank s := by
  induction hpath with
  | single hmentions =>
    obtain ⟨length, hlength, hmem⟩ := hmentions
    exact hr.lt hlength _ hmem ht
  | tail _ hmentions ih =>
    obtain ⟨length, hlength, hmem⟩ := hmentions
    exact Nat.lt_trans (hr.lt hlength _ hmem ht) (ih (isResolved_iff.mpr ⟨length, hlength⟩))

theorem Acyclic.not_mentions (ha : a.Acyclic) (s : SpaceId) : ¬ Relation.TransGen a.Mentions s s := by
  intro hpath
  obtain ⟨rank, hr⟩ := ha
  obtain ⟨t, ⟨length, hlength, -⟩, -⟩ := Relation.TransGen.head'_iff.mp hpath
  exact Nat.lt_irrefl _ (hr.lt_of_path hpath (isResolved_iff.mpr ⟨length, hlength⟩))

/-! ### The spaces that a length depends on -/

/-- The spaces with a length. -/
def resolved (a : Spaces) : List SpaceId :=
  ((List.range a.size).map SpaceId.mk).filter fun s => a.isResolved s

theorem mem_resolved : s ∈ a.resolved ↔ a.isResolved s := by
  rw [resolved, List.mem_filter, and_iff_right_iff_imp]
  intro hs
  obtain ⟨length, hlength⟩ := isResolved_iff.mp hs
  obtain ⟨space, hspace, -⟩ := Option.bind_eq_some_iff.mp hlength
  exact List.mem_map.mpr ⟨s.index, List.mem_range.mpr (lt_size_of_get? hspace), rfl⟩

theorem length_resolved_add_unresolved (a : Spaces) :
    a.resolved.length + a.unresolved.length = a.size := by
  rw [resolved, unresolved, ← List.length_eq_length_filter_add, List.length_map, List.length_range]

open Classical in
/-- The spaces with a length that the length of a space depends on. -/
noncomputable def below (a : Spaces) (s : SpaceId) : List SpaceId :=
  a.resolved.filter fun t => Relation.TransGen a.Mentions s t

theorem mem_below : t ∈ a.below s ↔ a.isResolved t ∧ Relation.TransGen a.Mentions s t := by
  classical
  rw [below, List.mem_filter, mem_resolved, decide_eq_true_iff]

theorem length_below_lt (hpath : Relation.TransGen a.Mentions s t) (ht : a.isResolved t)
    (hloop : ¬ Relation.TransGen a.Mentions t t) : (a.below t).length < (a.below s).length := by
  classical
  have hpart : a.below t = (a.below s).filter fun u => Relation.TransGen a.Mentions t u := by
    rw [below, below, List.filter_filter]
    refine List.filter_congr fun u _ => ?_
    rw [Bool.eq_iff_iff, Bool.and_eq_true, decide_eq_true_iff, decide_eq_true_iff]
    exact ⟨fun h => ⟨h, hpath.trans h⟩, And.left⟩
  rw [hpart]
  exact List.length_filter_lt_length_iff_exists.mpr
    ⟨t, mem_below.mpr ⟨ht, hpath⟩, by rwa [decide_eq_true_iff]⟩

/-- If no length depends on its own space, the lengths can be ranked. -/
theorem acyclic_of_not_mentions (h : ∀ s, ¬ Relation.TransGen a.Mentions s s) : a.Acyclic := by
  refine ⟨fun s => (a.below s).length, ⟨fun hl t ht hs => ?_, fun {s} hs => ?_⟩⟩
  · exact length_below_lt (.single ⟨_, hl, ht⟩) hs (h t)
  · have hlt : (a.below s).length < a.resolved.length := by
      classical
      refine List.length_filter_lt_length_iff_exists.mpr ⟨s, mem_resolved.mpr hs, ?_⟩
      rw [decide_eq_true_iff]
      exact h s
    have := a.length_resolved_add_unresolved
    omega

theorem acyclic_iff : a.Acyclic ↔ ∀ s, ¬ Relation.TransGen a.Mentions s s :=
  ⟨Acyclic.not_mentions, acyclic_of_not_mentions⟩

/-! ### The number of terms below a space -/

/-- The number of terms that come up when the lengths below a space are put in, to a given depth. -/
def weight (a : Spaces) : Nat → SpaceId → Nat
  | 0, _ => 1
  | times + 1, s =>
    match a.length? s with
    | none => 1
    | some length => 1 + (length.spaces.map fun t => a.weight times t.1).sum

theorem weight_pos (a : Spaces) (times : Nat) (s : SpaceId) : 0 < a.weight times s := by
  cases times with
  | zero => exact Nat.one_pos
  | succ times =>
    unfold weight
    split <;> omega

/-- From its rank on the depth makes no difference for a space. -/
theorem weight_succ {rank : SpaceId → Nat} (hr : a.Ranked rank) (times : Nat) (s : SpaceId)
    (h : a.isResolved s → rank s < times) : a.weight (times + 1) s = a.weight times s := by
  induction times generalizing s with
  | zero =>
    have hs : ¬ a.isResolved s := fun hs => Nat.not_lt_zero _ (h hs)
    simp only [weight, length?_eq_none hs]
  | succ times ih =>
    by_cases hs : a.isResolved s
    · obtain ⟨length, hl⟩ := isResolved_iff.mp hs
      have hterms : length.spaces.map (fun t => a.weight (times + 1) t.1) =
          length.spaces.map fun t => a.weight times t.1 := by
        refine List.map_congr_left fun t ht => ih t.1 fun hres => ?_
        have hfirst := hr.lt hl t.1 (List.mem_map_of_mem ht) hres
        have hsecond := h hs
        omega
      rw [weight, weight, hl]
      dsimp only
      rw [hterms]
    · simp only [weight, length?_eq_none hs]

theorem Acyclic.weight_eq (ha : a.Acyclic) {length : Length} (h : a.length? s = some length) :
    a.weight a.size s = 1 + (length.spaces.map fun t => a.weight a.size t.1).sum := by
  obtain ⟨rank, hr⟩ := ha
  have hs := hr.bounded (isResolved_iff.mpr ⟨length, h⟩)
  rw [← weight_succ hr a.size s fun _ => by omega, weight, h]

end Spaces

/-! ## 2. Unfolding -/

/-- A combination of spaces while lengths are put in: the terms still to be looked at, the bytes found so far and
the spaces without a length that have come up. -/
structure Unfolding where
  stack : List (SpaceId × Int)
  bytes : Int := 0
  rest : Terms SpaceId := []

namespace Unfolding

def start (ts : Terms SpaceId) : Unfolding := { stack := (Extent.ofTerms ts).spaces.reverse }

/-- The terms of a length, taken `k` times, in the order in which they are looked at. -/
def termsOf (length : Length) (k : Int) : List (SpaceId × Int) :=
  (length.spaces.map fun (t, c) => (t, k * c.toInt)).reverse

/-- Looks at the next term, if there is one. -/
def step? (a : Spaces) (u : Unfolding) : Option Unfolding :=
  match u.stack with
  | [] => none
  | (s, k) :: stack =>
    if k = 0 then some { u with stack }
    else
      match a.length? s with
      | some length =>
        some { u with stack := termsOf length k ++ stack, bytes := u.bytes + k * length.bytes.toInt }
      | none => some { u with stack, rest := u.rest.add s (Int32.ofInt k) }

/-- Whether looking at the next term gets from one to the other. -/
def Steps (a : Spaces) (u v : Unfolding) : Prop := u.step? a = some v

variable {a : Spaces} {u v : Unfolding}

/-! ### The end -/

def load (a : Spaces) (u : Unfolding) : Nat := (u.stack.map fun t => a.weight a.size t.1).sum

theorem load_termsOf (a : Spaces) (length : Length) (k : Int) :
    ((termsOf length k).map fun t => a.weight a.size t.1).sum =
      (length.spaces.map fun t => a.weight a.size t.1).sum := by
  rw [termsOf, List.map_reverse, List.sum_reverse, List.map_map]
  rfl

theorem load_lt_of_step? (ha : a.Acyclic) (h : u.step? a = some v) : v.load a < u.load a := by
  unfold step? at h
  split at h
  · cases h
  rename_i s k stack hstack
  have hload : u.load a = a.weight a.size s + (stack.map fun t => a.weight a.size t.1).sum := by
    rw [load, hstack, List.map_cons, List.sum_cons]
  have hpos := a.weight_pos a.size s
  split at h
  · cases h
    rw [hload]
    exact Nat.lt_add_of_pos_left hpos
  split at h
  · rename_i length hlength
    cases h
    rw [hload, ha.weight_eq hlength, load, List.map_append, List.sum_append, load_termsOf]
    omega
  · cases h
    rw [hload]
    exact Nat.lt_add_of_pos_left hpos

/-- No stack is looked through for ever. -/
theorem wellFounded_steps (ha : a.Acyclic) : WellFounded fun v u => Steps a u v :=
  Subrelation.wf (fun h => load_lt_of_step? ha h) (measure (load a)).wf

/-- The stack is empty at the end. -/
theorem exists_run (ha : a.Acyclic) (u : Unfolding) :
    ∃ v, Relation.ReflTransGen (Steps a) u v ∧ v.stack = [] := by
  induction u using (wellFounded_steps ha).induction with
  | _ u ih =>
    cases hstep : u.step? a with
    | some v =>
      obtain ⟨w, hrun, hend⟩ := ih v hstep
      exact ⟨w, .head hstep hrun, hend⟩
    | none =>
      refine ⟨u, .refl, ?_⟩
      unfold step? at hstep
      split at hstep
      · assumption
      · split at hstep
        · cases hstep
        · split at hstep <;> cases hstep

/-! ### The result -/

/-- The number of bytes, modulo 2^32, when space `s` has length `τ s`. -/
def value (τ : SpaceId → Int32) (u : Unfolding) : Int32 :=
  Int32.ofInt u.bytes + Extent.sum τ u.stack + u.rest.value τ

theorem sum_append (τ : SpaceId → Int32) (ts us : List (SpaceId × Int)) :
    Extent.sum τ (ts ++ us) = Extent.sum τ ts + Extent.sum τ us := by
  induction ts with
  | nil => simp [Extent.sum]
  | cons t ts ih => rw [List.cons_append, Extent.sum, Extent.sum, ih, Int32.add_assoc]

theorem sum_reverse (τ : SpaceId → Int32) (ts : List (SpaceId × Int)) :
    Extent.sum τ ts.reverse = Extent.sum τ ts := by
  induction ts with
  | nil => rfl
  | cons t ts ih =>
    rw [List.reverse_cons, sum_append, ih, Extent.sum, Extent.sum, Extent.sum]
    grind

theorem sum_termsOf (τ : SpaceId → Int32) (length : Length) (k : Int) :
    Extent.sum τ (termsOf length k) = Int32.ofInt k * length.spaces.value τ := by
  rw [termsOf, sum_reverse]
  induction length.spaces with
  | nil => simp [Extent.sum, Terms.value]
  | cons t ts ih =>
    rw [List.map_cons, Extent.sum, ih, Terms.value, Int32.ofInt_mul, Int32.ofInt_toInt]
    grind

theorem value_step? {τ : SpaceId → Int32} (hτ : a.Fits τ) (h : u.step? a = some v) :
    v.value τ = u.value τ := by
  unfold step? at h
  split at h
  · cases h
  rename_i s k stack hstack
  have hvalue : u.value τ =
      Int32.ofInt u.bytes + (Int32.ofInt k * τ s + Extent.sum τ stack) + u.rest.value τ := by
    rw [value, hstack, Extent.sum]
  split at h
  · rename_i hzero
    cases h
    rw [hvalue, hzero, show Int32.ofInt 0 = 0 from rfl, Int32.zero_mul, Int32.zero_add, value]
  split at h
  · rename_i length hlength
    cases h
    rw [hvalue, value, sum_append, sum_termsOf, hτ s length hlength, Int32.ofInt_add, Int32.ofInt_mul,
      Int32.ofInt_toInt]
    grind
  · cases h
    rw [hvalue, value, Terms.value_add]
    grind

/-- Whether the terms that have been left are different spaces without a length, with coefficients that are not
zero. -/
structure Settled (a : Spaces) (ts : Terms SpaceId) : Prop where
  distinct : (ts.map Prod.fst).Nodup
  nonzero : ∀ t ∈ ts, t.2 ≠ 0
  isOpen : ∀ s ∈ ts.map Prod.fst, ¬ a.isResolved s

theorem Settled.nil : Settled a [] where
  distinct := List.nodup_nil
  nonzero _ h := nomatch h
  isOpen _ h := nomatch h

theorem Settled.add {s : SpaceId} {k : Int32} {ts : Terms SpaceId} (h : Settled a ts)
    (hs : ¬ a.isResolved s) : Settled a (ts.add s k) := by
  have hreduced : (ts.add s k).Reduced := Terms.Reduced.add ⟨h.distinct, h.nonzero⟩
  refine ⟨hreduced.distinct, hreduced.nonzero, fun t ht => ?_⟩
  rcases Terms.mem_keys_insert ht with rfl | ht
  · exact hs
  · exact h.isOpen t ht

theorem settled_step? (h : u.step? a = some v) (hu : Settled a u.rest) : Settled a v.rest := by
  unfold step? at h
  split at h
  · cases h
  split at h
  · cases h
    exact hu
  split at h
  · cases h
    exact hu
  · rename_i hnone
    cases h
    exact hu.add (Spaces.not_isResolved hnone)

/-- Spaces in the order of their numbers. -/
def sorted (ts : Terms SpaceId) : Terms SpaceId := ts.mergeSort fun t u => t.1.index ≤ u.1.index

theorem value_perm {τ : SpaceId → Int32} {ts us : Terms SpaceId} (h : ts.Perm us) :
    ts.value τ = us.value τ := by
  induction h with
  | nil => rfl
  | cons t _ ih => rw [Terms.value, Terms.value, ih]
  | swap t u ts =>
    simp only [Terms.value]
    grind
  | trans _ _ ih ih' => exact ih.trans ih'

theorem Settled.canonical {ts : Terms SpaceId} (h : Settled a ts) : (sorted ts).Canonical := by
  have hperm : (sorted ts).Perm ts := List.mergeSort_perm ts _
  have hle : (sorted ts).Pairwise fun t u => t.1.index ≤ u.1.index := by
    have hsorted := @List.pairwise_mergeSort _ (fun t u : SpaceId × Int32 => t.1.index ≤ u.1.index)
      (fun _ _ _ h h' => by simp only [decide_eq_true_eq] at h h' ⊢; omega)
      (fun _ _ => by simp only [Bool.or_eq_true, decide_eq_true_eq]; omega) ts
    exact hsorted.imp fun hle => of_decide_eq_true hle
  have hne : (sorted ts).Pairwise fun t u => t.1 ≠ u.1 :=
    List.pairwise_map.mp ((hperm.map Prod.fst).nodup_iff.mpr h.distinct)
  refine ⟨(hle.and hne).imp ?_, fun t ht => h.nonzero t (hperm.mem_iff.mp ht)⟩
  rintro ⟨⟨i⟩, _⟩ ⟨⟨j⟩, _⟩ ⟨hij, hdiffer⟩
  exact Nat.lt_of_le_of_ne hij fun heq => hdiffer (congrArg SpaceId.mk heq)

/-- What is left when the stack is empty is the result of the substitution. -/
theorem substitute_of_run (ha : a.Acyclic) {ts : Terms SpaceId}
    (h : Relation.ReflTransGen (Steps a) (start ts) v) (hend : v.stack = []) :
    Int32.ofInt (a.substitute ts).1 = Int32.ofInt v.bytes ∧ (a.substitute ts).2 = sorted v.rest := by
  have hkeeps : Settled a v.rest ∧ ∀ τ, a.Fits τ → v.value τ = (start ts).value τ := by
    clear hend
    induction h with
    | refl => exact ⟨.nil, fun _ _ => rfl⟩
    | tail _ hstep ih => exact ⟨settled_step? hstep ih.1, fun τ hτ => (value_step? hτ hstep).trans (ih.2 τ hτ)⟩
  obtain ⟨hsettled, hvalues⟩ := hkeeps
  have hperm : (sorted v.rest).Perm v.rest := List.mergeSort_perm v.rest _
  refine Spaces.eq_of_value ha (Spaces.canonical_substitute a ts) hsettled.canonical
    (fun _ => Spaces.not_isResolved_of_mem_substitute ha)
    (fun s hs => hsettled.isOpen s ((hperm.map Prod.fst).mem_iff.mp hs)) fun τ hτ => ?_
  have hvalue := hvalues τ hτ
  rw [value, value, hend, start, sum_reverse] at hvalue
  have hstart := Extent.value_ofTerms τ ts
  rw [Extent.value] at hstart
  rw [Spaces.value_substitute hτ, value_perm hperm]
  simp only [Extent.sum, Terms.value, Int32.add_zero] at hvalue
  rw [hvalue, ← hstart]
  rfl

end Unfolding

/-! ## 3. Sessions -/

namespace Session

/-- At no moment of a session the spaces that lengths are in terms of lead back to where they started. So every
combination of spaces can be unfolded to the end, and what is left are spaces without a length, in the order of their
numbers, each once and with a coefficient that is not zero. -/
theorem unfolds_of_occurs (settings : Settings) :
    (∀ operations, Moment.Occurs settings ⟨stateAfter settings operations, [], .reading⟩) ∧
    ∀ m : Moment, m.Occurs settings →
      let a := m.state.layout.spaces
      (∀ s, ¬ Relation.TransGen a.Mentions s s) ∧
      (∀ u, Acc (fun v u => Unfolding.Steps a u v) u) ∧
      ∀ ts : Terms SpaceId, ∃ bytes rest,
        Relation.ReflTransGen (Unfolding.Steps a) (.start ts) ⟨[], bytes, rest⟩ ∧
        Int32.ofInt (a.substitute ts).1 = Int32.ofInt bytes ∧
        (a.substitute ts).2 = Unfolding.sorted rest ∧
        (∀ t ∈ (a.substitute ts).2, ¬ a.isResolved t.1 ∧ t.2 ≠ 0) ∧
        (a.substitute ts).2.Pairwise fun t u => t.1.index < u.1.index := by
  refine ⟨occurs_stateAfter settings, fun m hm => ?_⟩
  have ha := hm.valid.wellFormed.acyclic
  refine ⟨ha.not_mentions, (Unfolding.wellFounded_steps ha).apply, fun ts => ?_⟩
  obtain ⟨⟨stack, bytes, rest⟩, hrun, hend⟩ := Unfolding.exists_run ha (.start ts)
  cases hend
  obtain ⟨hbytes, hrest⟩ := Unfolding.substitute_of_run ha hrun rfl
  obtain ⟨hsorted, hnonzero⟩ := Spaces.canonical_substitute m.state.layout.spaces ts
  refine ⟨bytes, rest, hrun, hbytes, hrest, fun t ht => ⟨?_, hnonzero t ht⟩, hsorted⟩
  exact Spaces.not_isResolved_of_mem_substitute ha (List.mem_map_of_mem ht)

end Session

end Assembler
