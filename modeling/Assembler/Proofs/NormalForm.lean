import Assembler.Assembly.Attempt
import Assembler.Proofs.Substitution
/-!
Normal forms of addresses at different times.

An address that is normalized now and again later is the address normalized later
(`Address.normalize_normalize`). So as long as the open spaces of an address stay open, its normal form
stays what it is (`Address.normalize_eq`), and so does the highest of some addresses (`Address.highest_eq`).
A rounding that has been possible once gives the same place later on (`Address.roundUp_later`).
-/

namespace Assembler

namespace Address

variable {a b : Spaces}

/-- Whether the spaces of an address are open and in order. -/
structure Normal (a : Spaces) (x : Address) : Prop where
  canonical : x.spaces.Canonical
  isOpen : ∀ s ∈ x.spaces.map Prod.fst, ¬ a.isResolved s

theorem Normal.later {x : Address} (hx : x.Normal a)
    (ho : ∀ s ∈ x.spaces.map Prod.fst, ¬ b.isResolved s) : x.Normal b := ⟨hx.canonical, ho⟩

theorem normal_normalize (ha : a.Acyclic) (x : Address) : (x.normalize a).Normal a :=
  ⟨a.canonical_substitute _, fun _ hs => Spaces.not_isResolved_of_mem_substitute ha hs⟩

theorem isAbsolute_normalize (x : Address) : (x.normalize a).isAbsolute = x.isAbsolute := by
  simp only [isAbsolute, normalize]

/-- The number of bytes of an address, modulo 2^32, when space `s` has length `τ s`. -/
def bytes (τ : SpaceId → Int32) (x : Address) : Int32 := x.offset + x.spaces.value τ

theorem bytes_normalize {τ : SpaceId → Int32} (h : a.Fits τ) (x : Address) :
    (x.normalize a).bytes τ = x.bytes τ := by
  have hv := Spaces.value_substitute h x.spaces
  show Int32.ofInt (x.offset.toInt + (a.substitute x.spaces).1) +
    (a.substitute x.spaces).2.value τ = x.offset + x.spaces.value τ
  rw [Int32.ofInt_add, Int32.ofInt_toInt, Int32.add_assoc, hv]

/-- A normal form is determined by its bases and its number of bytes. -/
theorem Normal.eq_of_bytes (ha : a.Acyclic) {x y : Address} (hx : x.Normal a) (hy : y.Normal a)
    (hbases : x.bases = y.bases) (h : ∀ τ, a.Fits τ → x.bytes τ = y.bytes τ) : x = y := by
  obtain ⟨ho, hs⟩ := Spaces.eq_of_value ha hx.canonical hy.canonical hx.isOpen hy.isOpen h
  cases x
  cases y
  simp_all

theorem normalize_normalize (hab : a.Earlier b) (hb : b.Acyclic) (x : Address) :
    (x.normalize a).normalize b = x.normalize b := by
  refine (normal_normalize hb _).eq_of_bytes hb (normal_normalize hb _) rfl fun τ hτ => ?_
  rw [bytes_normalize hτ, bytes_normalize (hab.fits hτ), bytes_normalize hτ]

theorem Normal.normalize_eq (ha : a.Acyclic) {x : Address} (hx : x.Normal a) :
    x.normalize a = x :=
  (normal_normalize ha x).eq_of_bytes ha hx rfl fun _ hτ => bytes_normalize hτ x

/-- As long as the spaces left in an address stay open, its normal form stays the same. -/
theorem normalize_eq (hab : a.Earlier b) (ha : a.Acyclic) (hb : b.Acyclic) {x : Address}
    (ho : ∀ s ∈ (x.normalize a).spaces.map Prod.fst, ¬ b.isResolved s) :
    x.normalize b = x.normalize a := by
  rw [← normalize_normalize hab hb]
  exact ((normal_normalize ha x).later ho).normalize_eq hb

theorem normalize_eq_of_isEmpty (hab : a.Earlier b) (ha : a.Acyclic) (hb : b.Acyclic)
    {x : Address} (h : (x.normalize a).spaces.isEmpty) : x.normalize b = x.normalize a := by
  refine normalize_eq hab ha hb fun s hs => ?_
  rw [List.isEmpty_iff.mp h] at hs
  cases hs

/-- If the bytes of an address do not depend on open spaces, none is left in its normal form. -/
theorem spaces_normalize_eq_nil (ha : a.Acyclic) {x : Address} {n : Int32}
    (h : ∀ τ, a.Fits τ → x.bytes τ = n) : (x.normalize a).spaces = [] := by
  have hx := normal_normalize ha x
  have hnone : ∀ s ∈ ([] : Terms SpaceId).map Prod.fst, ¬ a.isResolved s := fun _ hs => by cases hs
  have hvalue : ∀ τ, a.Fits τ → (x.normalize a).offset + (x.normalize a).spaces.value τ =
      n + Terms.value τ [] := fun τ hτ =>
    ((bytes_normalize hτ x).trans (h τ hτ)).trans (Int32.add_zero n).symm
  exact (Spaces.eq_of_value ha hx.canonical .nil hx.isOpen hnone hvalue).2

theorem bytes_addScaled (τ : SpaceId → Int32) (x y : Address) (k : Int32) :
    (x.addScaled y k).bytes τ = x.bytes τ + k * y.bytes τ := by
  simp only [bytes, addScaled, Terms.value_addScaled]
  grind

/-- Lengths may be put in before a multiple is added. -/
theorem normalize_addScaled_normalize (hab : a.Earlier b) (hb : b.Acyclic) (x y : Address)
    (k : Int32) : ((x.normalize a).addScaled y k).normalize b = (x.addScaled y k).normalize b := by
  refine (normal_normalize hb _).eq_of_bytes hb (normal_normalize hb _) rfl fun τ hτ => ?_
  rw [bytes_normalize hτ, bytes_normalize hτ, bytes_addScaled, bytes_addScaled,
    bytes_normalize (hab.fits hτ)]

/-! ### Known distances -/

/-- Whether two addresses are a number of bytes apart that does not depend on open spaces. -/
def Apart (a : Spaces) (x y : Address) : Prop :=
  ∃ n : Int32, ∀ τ, a.Fits τ → x.bytes τ = y.bytes τ + n

theorem Apart.refl (x : Address) : Apart a x x := ⟨0, fun _ _ => (Int32.add_zero _).symm⟩

theorem Apart.symm {x y : Address} (h : Apart a x y) : Apart a y x := by
  obtain ⟨n, hn⟩ := h
  refine ⟨-n, fun τ hτ => ?_⟩
  rw [hn τ hτ]
  grind

theorem Apart.trans {x y z : Address} (h : Apart a x y) (h' : Apart a y z) : Apart a x z := by
  obtain ⟨n, hn⟩ := h
  obtain ⟨m, hm⟩ := h'
  refine ⟨m + n, fun τ hτ => ?_⟩
  rw [hn τ hτ, hm τ hτ]
  grind

theorem apart_iff (ha : a.Acyclic) {x y : Address} :
    Apart a x y ↔ ((x - y).normalize a).spaces = [] := by
  have hsub : ∀ τ, (x - y).bytes τ = x.bytes τ - y.bytes τ := by
    intro τ
    have := bytes_addScaled τ x y (-1)
    grind [show x - y = x.addScaled y (-1) from rfl]
  constructor
  · rintro ⟨n, hn⟩
    refine @spaces_normalize_eq_nil a ha _ n fun τ hτ => ?_
    rw [hsub, hn τ hτ]
    grind
  · intro hnil
    refine ⟨((x - y).normalize a).offset, fun τ hτ => ?_⟩
    have hbytes := bytes_normalize hτ (x - y)
    rw [bytes, hnil, hsub] at hbytes
    have hzero : Terms.value τ ([] : Terms SpaceId) = 0 := rfl
    grind

/-! ### Rounding -/

theorem roundUp_eq_error {boundary : Nat} {x : Address} {waiting : List SpaceId} :
    x.roundUp a boundary = .error waiting ↔ 1 < boundary ∧ (x.normalize a).spaces ≠ [] ∧
      waiting = (x.normalize a).spaces.map Prod.fst := by
  simp only [roundUp]
  split
  · exact iff_of_false (fun h => nomatch h) fun h => absurd h.1 (by omega)
  split
  · rename_i hempty
    exact iff_of_false (fun h => nomatch h) fun h => h.2.1 (List.isEmpty_iff.mp hempty)
  · rename_i hboundary hne
    constructor
    · intro h
      cases h
      exact ⟨by omega, fun hnil => hne (List.isEmpty_iff.mpr hnil), rfl⟩
    · rintro ⟨-, -, rfl⟩
      rfl

/-- Rounding changes the number of bytes only. -/
theorem spaces_of_roundUp {boundary : Nat} {x y : Address} (h : x.roundUp a boundary = .ok y) :
    y.bases = x.bases ∧ y.spaces = (x.normalize a).spaces := by
  simp only [roundUp] at h
  split at h
  · cases h; exact ⟨rfl, rfl⟩
  split at h
  · cases h; exact ⟨rfl, rfl⟩
  · cases h

/-- An address that has been rounded up is rounded up to the same place later. -/
theorem roundUp_later (hab : a.Earlier b) (ha : a.Acyclic) (hb : b.Acyclic) {boundary : Nat}
    {x y : Address} (h : x.roundUp a boundary = .ok y) :
    (x.normalize b).roundUp b boundary = .ok (y.normalize b) := by
  simp only [roundUp] at h ⊢
  rw [normalize_normalize (.refl b) hb x]
  split at h
  · rename_i hboundary
    cases h
    rw [if_pos hboundary, normalize_normalize hab hb x]
  · rename_i hboundary
    split at h
    · rename_i hempty
      cases h
      have hsame := normalize_eq_of_isEmpty hab ha hb hempty
      rw [if_neg hboundary, hsame, if_pos hempty]
      -- Without spaces nothing is put in.
      refine congrArg Except.ok (Normal.normalize_eq hb ⟨?_, fun k hk => ?_⟩).symm
      · exact (normal_normalize ha x).canonical
      · exact absurd hk (by simp [addOffset, List.isEmpty_iff.mp hempty])
    · cases h

theorem bytes_addOffset (τ : SpaceId → Int32) (x : Address) (n : Int32) :
    (x.addOffset n).bytes τ = x.bytes τ + n := by
  simp only [bytes, addOffset]
  grind

/-- A distance that does not depend on open spaces stays the same. -/
theorem between_later (hab : a.Earlier b) (ha : a.Acyclic) (hb : b.Acyclic) {x y : Address}
    {n : Int32} (h : (Length.between a (x.addOffset n) y).spaces = []) :
    Length.between b ((x.normalize b).addOffset n) y = Length.between a (x.addOffset n) y := by
  have hput : (((x.normalize b).addOffset n) - y).normalize b =
      ((x.addOffset n) - y).normalize b := by
    have hbases : ((((x.normalize b).addOffset n) - y).normalize b).bases =
        (((x.addOffset n) - y).normalize b).bases := by
      simp only [HSub.hSub, Sub.sub, addScaled, normalize, addOffset]
    refine (normal_normalize hb _).eq_of_bytes hb (normal_normalize hb _) hbases fun τ hτ => ?_
    have hsub : ∀ z : Address, (z - y).bytes τ = z.bytes τ + (-1) * y.bytes τ := fun z =>
      bytes_addScaled τ z y (-1)
    rw [bytes_normalize hτ, bytes_normalize hτ, hsub, hsub, bytes_addOffset, bytes_addOffset,
      bytes_normalize hτ]
  have hsame := normalize_eq_of_isEmpty hab ha hb (List.isEmpty_iff.mpr h)
  simp only [Length.between, hput, hsame]

theorem not_isResolved_of_roundUp_error (ha : a.Acyclic) {boundary : Nat} {x : Address}
    {waiting : List SpaceId} (h : x.roundUp a boundary = .error waiting) :
    ∀ s ∈ waiting, ¬ a.isResolved s := by
  obtain ⟨-, -, rfl⟩ := roundUp_eq_error.mp h
  exact (normal_normalize ha x).isOpen

/-! ### The highest of some addresses -/

end Address

theorem SpaceId.mem_insert {s t : SpaceId} {list : List SpaceId} :
    t ∈ s.insert list ↔ t = s ∨ t ∈ list := by
  induction list with
  | nil => simp [SpaceId.insert]
  | cons r rest ih =>
    unfold SpaceId.insert
    split
    · subst s; simp
    split
    · simp
    · rw [List.mem_cons, ih, List.mem_cons]
      constructor
      · rintro (h | h | h)
        · exact .inr (.inl h)
        · exact .inl h
        · exact .inr (.inr h)
      · rintro (h | h | h)
        · exact .inr (.inl h)
        · exact .inl h
        · exact .inr (.inr h)

theorem SpaceId.mem_foldl_insert {t : SpaceId} {ts : Terms SpaceId} {list : List SpaceId} :
    t ∈ ts.foldl (fun found (s, _) => s.insert found) list ↔
      t ∈ list ∨ t ∈ ts.map Prod.fst := by
  induction ts generalizing list with
  | nil => simp
  | cons u rest ih =>
    rw [List.foldl_cons, ih, SpaceId.mem_insert, List.map_cons, List.mem_cons]
    constructor
    · rintro ((h | h) | h)
      · exact .inr (.inl h)
      · exact .inl h
      · exact .inr (.inr h)
    · rintro (h | h | h)
      · exact .inl (.inr h)
      · exact .inl (.inl h)
      · exact .inr h

namespace Address

variable {a b : Spaces}

/-- One comparison of the search for the highest address. -/
def highestStep (a : Spaces) (state : Address × List SpaceId) (c : Address) :
    Address × List SpaceId :=
  let gap := (c - state.1).normalize a
  if gap.spaces.isEmpty then (if 0 < gap.offset then c else state.1, state.2)
  else (state.1, gap.spaces.foldl (fun found (s, _) => s.insert found) state.2)

theorem highestOf_eq_foldl (a : Spaces) (first : Address) (others : List Address) :
    highestOf a first others =
      let (best, blocking) := others.foldl (highestStep a) (first, [])
      if blocking.isEmpty then .ok best else .error blocking := rfl

theorem highest_eq_ok {first x : Address} {others : List Address} : highest a (first :: others) = .ok x ↔
    (others.foldl (highestStep a) (first, [])).2 = [] ∧ (others.foldl (highestStep a) (first, [])).1 = x := by
  rw [highest, highestOf_eq_foldl]
  dsimp only
  split
  · rename_i hempty
    rw [Except.ok.injEq]
    exact ⟨fun h => ⟨List.isEmpty_iff.mp hempty, h⟩, And.right⟩
  · rename_i hsome
    exact ⟨fun h => (nomatch h), fun h => absurd (List.isEmpty_iff.mpr h.1) hsome⟩

theorem highest_eq_error {first : Address} {others : List Address} {waiting : List SpaceId} :
    highest a (first :: others) = .error waiting ↔
      waiting ≠ [] ∧ (others.foldl (highestStep a) (first, [])).2 = waiting := by
  rw [highest, highestOf_eq_foldl]
  dsimp only
  split
  · rename_i hempty
    exact ⟨fun h => (nomatch h), fun h => absurd (h.2.symm.trans (List.isEmpty_iff.mp hempty)) h.1⟩
  · rename_i hsome
    rw [Except.error.injEq]
    exact ⟨fun h => ⟨fun hnil => hsome (List.isEmpty_iff.mpr (h.trans hnil)), h⟩, And.right⟩

theorem mem_highestStep {state : Address × List SpaceId} {c : Address} {s : SpaceId}
    (h : s ∈ (highestStep a state c).2) :
    s ∈ state.2 ∨ s ∈ ((c - state.1).normalize a).spaces.map Prod.fst := by
  simp only [highestStep] at h
  split at h
  · exact .inl h
  · exact SpaceId.mem_foldl_insert.mp h

theorem subset_highestStep {state : Address × List SpaceId} {c : Address} {s : SpaceId}
    (h : s ∈ state.2) : s ∈ (highestStep a state c).2 := by
  simp only [highestStep]
  split
  · exact h
  · exact SpaceId.mem_foldl_insert.mpr (.inl h)

theorem subset_foldl_highestStep {others : List Address} {state : Address × List SpaceId}
    {s : SpaceId} (h : s ∈ state.2) : s ∈ (others.foldl (highestStep a) state).2 := by
  induction others generalizing state with
  | nil => exact h
  | cons c rest ih => exact ih (subset_highestStep h)

theorem foldl_highestStep_open (ha : a.Acyclic) {others : List Address}
    {state : Address × List SpaceId} (hs : ∀ s ∈ state.2, ¬ a.isResolved s) :
    ∀ s ∈ (others.foldl (highestStep a) state).2, ¬ a.isResolved s := by
  induction others generalizing state with
  | nil => exact hs
  | cons c rest ih =>
    refine ih fun s h => ?_
    rcases mem_highestStep h with h | h
    · exact hs s h
    · exact (normal_normalize ha _).isOpen s h

theorem highestStep_eq (hab : a.Earlier b) (ha : a.Acyclic) (hb : b.Acyclic)
    {state : Address × List SpaceId} {c : Address}
    (ho : ∀ s ∈ (highestStep a state c).2, ¬ b.isResolved s) :
    highestStep b state c = highestStep a state c := by
  have heq : (c - state.1).normalize b = (c - state.1).normalize a := by
    by_cases hempty : ((c - state.1).normalize a).spaces.isEmpty
    · exact normalize_eq_of_isEmpty hab ha hb hempty
    · refine normalize_eq hab ha hb fun s hs => ho s ?_
      simp only [highestStep, if_neg hempty]
      exact SpaceId.mem_foldl_insert.mpr (.inr hs)
  simp only [highestStep, heq]

theorem foldl_highestStep_eq (hab : a.Earlier b) (ha : a.Acyclic) (hb : b.Acyclic)
    {others : List Address} {state : Address × List SpaceId}
    (ho : ∀ s ∈ (others.foldl (highestStep a) state).2, ¬ b.isResolved s) :
    others.foldl (highestStep b) state = others.foldl (highestStep a) state := by
  induction others generalizing state with
  | nil => rfl
  | cons c rest ih =>
    have hstep : highestStep b state c = highestStep a state c := by
      refine highestStep_eq hab ha hb fun s hs => ?_
      have hmem : s ∈ (rest.foldl (highestStep a) (highestStep a state c)).2 :=
        subset_foldl_highestStep hs
      exact ho s hmem
    rw [List.foldl_cons, List.foldl_cons, hstep]
    exact ih ho

/-- What is found without waiting for anything is a known distance from all candidates. -/
theorem apart_foldl_highestStep (ha : a.Acyclic) {others : List Address}
    {state : Address × List SpaceId} (h : (others.foldl (highestStep a) state).2 = []) :
    ∀ c ∈ state.1 :: others, Apart a (others.foldl (highestStep a) state).1 c := by
  induction others generalizing state with
  | nil =>
    intro c hc
    rw [List.mem_singleton.mp hc]
    exact .refl _
  | cons d rest ih =>
    have hgap : ((d - state.1).normalize a).spaces = [] := by
      refine List.eq_nil_iff_forall_not_mem.mpr fun t ht => ?_
      have hmem : t.1 ∈ (highestStep a state d).2 := by
        simp only [highestStep]
        rw [if_neg fun hempty => by rw [List.isEmpty_iff.mp hempty] at ht; cases ht]
        exact SpaceId.mem_foldl_insert.mpr (.inr (List.mem_map_of_mem ht))
      have hlast := @subset_foldl_highestStep a rest _ _ hmem
      rw [show (rest.foldl (highestStep a) (highestStep a state d)).2 = [] from h] at hlast
      cases hlast
    have hapart : Apart a d state.1 := (apart_iff ha).mpr hgap
    have hnext : (highestStep a state d).1 = d ∨ (highestStep a state d).1 = state.1 := by
      simp only [highestStep]
      split
      · split
        · exact .inl rfl
        · exact .inr rfl
      · exact .inr rfl
    have hrest := ih h
    have hbest := hrest _ List.mem_cons_self
    intro c hc
    rw [List.foldl_cons]
    rcases List.mem_cons.mp hc with rfl | hc
    · rcases hnext with heq | heq <;> rw [heq] at hbest
      · exact hbest.trans hapart
      · exact hbest
    rcases List.mem_cons.mp hc with rfl | hc
    · rcases hnext with heq | heq <;> rw [heq] at hbest
      · exact hbest
      · exact hbest.trans hapart.symm
    · exact hrest c (List.mem_cons_of_mem _ hc)

/-- The highest address is a known distance from all others. -/
theorem apart_highest (ha : a.Acyclic) {candidates : List Address} {x : Address}
    (h : highest a candidates = .ok x) : ∀ c ∈ candidates, Apart a x c := by
  cases candidates with
  | nil => cases h
  | cons first others =>
    obtain ⟨hnil, rfl⟩ := highest_eq_ok.mp h
    exact apart_foldl_highestStep ha hnil

theorem not_isResolved_of_highest_error (ha : a.Acyclic) {candidates : List Address}
    {waiting : List SpaceId} (h : highest a candidates = .error waiting) :
    ∀ s ∈ waiting, ¬ a.isResolved s := by
  cases candidates with
  | nil => cases h; exact fun _ hs => nomatch hs
  | cons first others =>
    obtain ⟨-, rfl⟩ := highest_eq_error.mp h
    exact foldl_highestStep_open ha fun _ hs => nomatch hs

/-- As long as what the search for the highest address waits for is open, its outcome is the same. -/
theorem highest_eq (hab : a.Earlier b) (ha : a.Acyclic) (hb : b.Acyclic)
    {candidates : List Address}
    (ho : ∀ waiting, highest a candidates = .error waiting → ∀ s ∈ waiting, ¬ b.isResolved s) :
    highest b candidates = highest a candidates := by
  cases candidates with
  | nil => rfl
  | cons first others =>
    have heq : others.foldl (highestStep b) (first, []) =
        others.foldl (highestStep a) (first, []) := by
      refine foldl_highestStep_eq hab ha hb fun s hs => ho _ (highest_eq_error.mpr ⟨?_, rfl⟩) s hs
      exact List.ne_nil_of_mem hs
    rw [highest, highest, highestOf_eq_foldl, highestOf_eq_foldl, heq]

end Address

end Assembler
