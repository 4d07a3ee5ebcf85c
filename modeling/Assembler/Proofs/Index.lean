import Assembler.Pending.Search
/-!
The indexes of the table of pending work.

The table lists the work that waits for each prerequisite and the work that will produce it. Both lists say
what the entries say (`Indexed`), and they do so after work is put in (`Indexed.reinsert`,
`Indexed.register`) and taken out (`Indexed.take`).
-/

namespace Assembler.PendingTable

variable {τ : Type} {t u : PendingTable τ} {id j : Nat} {p : Pending τ} {key : Prerequisite}

/-! ## 1. Waiting lists -/

theorem mem_addWaiter {waiters : Std.ExtTreeMap Prerequisite (Std.ExtTreeSet Nat)}
    {other : Prerequisite} :
    j ∈ (addWaiter id waiters other).getD key ∅ ↔
      j ∈ waiters.getD key ∅ ∨ (j = id ∧ key = other) := by
  rw [addWaiter, Std.ExtTreeMap.getD_insert]
  by_cases h : other = key
  · subst h
    rw [if_pos Std.ReflOrd.compare_self, Std.ExtTreeSet.mem_insert,
      Std.LawfulEqOrd.compare_eq_iff_eq, @eq_comm _ id j]
    simp only [and_true]
    exact or_comm
  · rw [if_neg (fun he => h (Std.LawfulEqOrd.eq_of_compare he))]
    simp [@eq_comm _ key other, h]

theorem mem_dropWaiter {waiters : Std.ExtTreeMap Prerequisite (Std.ExtTreeSet Nat)}
    {other : Prerequisite} :
    j ∈ (dropWaiter id waiters other).getD key ∅ ↔
      j ∈ waiters.getD key ∅ ∧ ¬ (j = id ∧ key = other) := by
  by_cases h : other = key
  · subst h
    simp only [and_true]
    rw [dropWaiter]
    split
    · rename_i hnone
      rw [Std.ExtTreeMap.getD_eq_getD_getElem?, hnone]
      simp
    · rename_i ids hsome
      have hmem : j ∈ ids.erase id ↔ j ∈ ids ∧ j ≠ id := by
        rw [Std.ExtTreeSet.mem_erase, ne_eq, Std.LawfulEqOrd.compare_eq_iff_eq, @eq_comm _ id j]
        exact and_comm
      have hold : waiters.getD other ∅ = ids := by
        rw [Std.ExtTreeMap.getD_eq_getD_getElem?, hsome]
        rfl
      rw [hold, ← ne_eq, ← hmem]
      dsimp only
      split
      · rename_i hempty
        rw [Std.ExtTreeMap.getD_erase_self, Std.ExtTreeSet.isEmpty_iff.mp hempty]
      · rw [Std.ExtTreeMap.getD_insert_self]
  · have hne : compare other key ≠ .eq := fun he => h (Std.LawfulEqOrd.eq_of_compare he)
    simp only [@eq_comm _ key other, h, and_false, not_false_eq_true, and_true]
    rw [dropWaiter]
    split
    · rfl
    · dsimp only
      split
      · rw [Std.ExtTreeMap.getD_erase, if_neg hne]
      · rw [Std.ExtTreeMap.getD_insert, if_neg hne]

theorem mem_foldl_addWaiter {waiters : Std.ExtTreeMap Prerequisite (Std.ExtTreeSet Nat)}
    {waiting : List Prerequisite} :
    j ∈ (waiting.foldl (addWaiter id) waiters).getD key ∅ ↔
      j ∈ waiters.getD key ∅ ∨ (j = id ∧ key ∈ waiting) := by
  induction waiting generalizing waiters with
  | nil => simp
  | cons other rest ih =>
    rw [List.foldl_cons, ih, mem_addWaiter, List.mem_cons, or_assoc, ← and_or_left]

theorem mem_foldl_dropWaiter {waiters : Std.ExtTreeMap Prerequisite (Std.ExtTreeSet Nat)}
    {waiting : List Prerequisite} :
    j ∈ (waiting.foldl (dropWaiter id) waiters).getD key ∅ ↔
      j ∈ waiters.getD key ∅ ∧ ¬ (j = id ∧ key ∈ waiting) := by
  induction waiting generalizing waiters with
  | nil => simp
  | cons other rest ih =>
    rw [List.foldl_cons, ih, mem_dropWaiter, List.mem_cons, and_or_left, not_or, and_assoc]

/-! ## 2. Putting work in and taking it out -/

variable [Produces τ]

theorem get?_reinsert (t : PendingTable τ) (id : Nat) (p : Pending τ) (j : Nat) :
    (t.reinsert id p).get? j = if j = id then some p else t.get? j := by
  show (t.entries.insert id p)[j]? = _
  rw [Std.ExtTreeMap.getElem?_insert]
  by_cases h : j = id
  · rw [if_pos h, if_pos (by rw [h]; exact Std.ReflOrd.compare_self)]
  · rw [if_neg h, if_neg (fun he => h (Std.LawfulEqOrd.eq_of_compare he).symm)]
    rfl

theorem mem_waitersOf_reinsert : j ∈ (t.reinsert id p).waitersOf key ↔
    j ∈ t.waitersOf key ∨ (j = id ∧ key ∈ p.waiting) := by
  rw [waitersOf, waitersOf, Std.ExtTreeSet.mem_toList, Std.ExtTreeSet.mem_toList]
  exact mem_foldl_addWaiter

theorem producer?_reinsert : (t.reinsert id p).producer? key =
    if product? p.work = some key then some id else t.producer? key := by
  simp only [producer?, reinsert]
  cases hp : product? p.work with
  | none => simp
  | some k =>
    by_cases h : k = key
    · rw [h]
      simp
    · rw [Std.ExtTreeMap.getElem?_insert,
        if_neg (fun he => h (Std.LawfulEqOrd.eq_of_compare he)), if_neg (by simpa using h)]

theorem take?_eq_some (h : t.take? id = some (p, u)) : t.get? id = some p := by
  unfold take? at h
  split at h
  · cases h
  · cases h
    assumption

theorem exists_take? (h : t.get? id = some p) : ∃ u, t.take? id = some (p, u) := by
  unfold take?
  rw [h]
  exact ⟨_, rfl⟩

theorem get?_take (h : t.take? id = some (p, u)) (j : Nat) :
    u.get? j = if j = id then none else t.get? j := by
  unfold take? at h
  split at h
  · cases h
  · cases h
    show (t.entries.erase id)[j]? = _
    rw [Std.ExtTreeMap.getElem?_erase]
    by_cases h : j = id
    · rw [if_pos h, if_pos (by rw [h]; exact Std.ReflOrd.compare_self)]
    · rw [if_neg h, if_neg (fun he => h (Std.LawfulEqOrd.eq_of_compare he).symm)]
      rfl

theorem mem_waitersOf_take (h : t.take? id = some (p, u)) : j ∈ u.waitersOf key ↔
    j ∈ t.waitersOf key ∧ ¬ (j = id ∧ key ∈ p.waiting) := by
  unfold take? at h
  split at h
  · cases h
  · cases h
    rw [waitersOf, waitersOf, Std.ExtTreeSet.mem_toList, Std.ExtTreeSet.mem_toList]
    exact mem_foldl_dropWaiter

theorem producers_take (h : t.take? id = some (p, u)) : u.producers =
    match product? p.work with
    | some key => if t.producer? key = some id then t.producers.erase key else t.producers
    | none => t.producers := by
  unfold take? at h
  split at h
  · cases h
  · cases h
    rfl

theorem producer?_take (h : t.take? id = some (p, u)) : u.producer? key =
    if product? p.work = some key ∧ t.producer? key = some id then none
    else t.producer? key := by
  show u.producers[key]? = _
  rw [producers_take h]
  cases hp : product? p.work with
  | none =>
    rw [if_neg fun hand => nomatch hand.1]
    rfl
  | some k =>
    dsimp only
    by_cases hid : t.producer? k = some id
    · rw [if_pos hid, Std.ExtTreeMap.getElem?_erase]
      by_cases h : k = key
      · subst h
        rw [if_pos Std.ReflOrd.compare_self, if_pos ⟨rfl, hid⟩]
      · rw [if_neg (fun he => h (Std.LawfulEqOrd.eq_of_compare he)),
          if_neg fun hand => h (Option.some.inj hand.1)]
        rfl
    · rw [if_neg hid, if_neg]
      · rfl
      · rintro ⟨hk, hid'⟩
        cases hk
        exact hid hid'

theorem next_take (h : t.take? id = some (p, u)) : u.next = t.next := by
  unfold take? at h
  split at h
  · cases h
  · cases h
    rfl

/-! ## 3. Indexes that agree with the entries -/

/-- Whether the table says of every prerequisite what waits for it and what will produce it, and no two
pieces of work produce the same. -/
structure Indexed (t : PendingTable τ) : Prop where
  fresh : ∀ id p, t.get? id = some p → id < t.next
  waiters : ∀ key id, id ∈ t.waitersOf key ↔ ∃ p, t.get? id = some p ∧ key ∈ p.waiting
  producers : ∀ key id,
    t.producer? key = some id ↔ ∃ p, t.get? id = some p ∧ product? p.work = some key

omit [Produces τ] in
theorem get?_clear (t : PendingTable τ) (id : Nat) : t.clear.get? id = none :=
  Std.ExtTreeMap.getElem?_empty

theorem indexed_clear (t : PendingTable τ) : t.clear.Indexed := by
  have hget := get?_clear t
  refine ⟨fun id p h => ?_, fun key id => iff_of_false (fun h => ?_) ?_,
    fun key id => iff_of_false (fun h => ?_) ?_⟩
  · rw [hget] at h
    cases h
  · have hmem := Std.ExtTreeSet.mem_toList.mp h
    rw [Std.ExtTreeMap.getD_eq_getD_getElem?] at hmem
    have hnone : t.clear.waiters[key]? = none := Std.ExtTreeMap.getElem?_empty
    rw [hnone] at hmem
    exact Std.ExtTreeSet.not_mem_empty hmem
  · rintro ⟨p, hp, -⟩
    rw [hget] at hp
    cases hp
  · have hnone : t.clear.producer? key = none := Std.ExtTreeMap.getElem?_empty
    rw [hnone] at h
    cases h
  · rintro ⟨p, hp, -⟩
    rw [hget] at hp
    cases hp

theorem indexed_empty : (({} : PendingTable τ)).Indexed := indexed_clear {}

/-- The work that is found produces something. -/
theorem product?_of_first? (h : t.first? false = some id) (hp : t.get? id = some p) :
    (product? p.work).isSome := by
  obtain ⟨x, hx, rfl⟩ := Option.map_eq_some_iff.mp h
  have hget := Std.ExtTreeMap.mem_toList_iff_getElem?_eq_some.mp (List.mem_of_find?_eq_some hx)
  cases hget.symm.trans hp
  simpa using List.find?_some hx

/-- The oldest work that produces something is looked for in all work. -/
theorem product?_of_first?_eq_none (h : t.first? false = none) (hp : t.get? id = some p) :
    product? p.work = none := by
  unfold first? at h
  rw [Option.map_eq_none_iff, List.find?_eq_none] at h
  have hno := h (id, p) (Std.ExtTreeMap.mem_toList_iff_getElem?_eq_some.mpr hp)
  simpa using hno

/-- No work is numbered with the number of the next. -/
theorem Indexed.get?_next (h : t.Indexed) : t.get? t.next = none := by
  cases hg : t.get? t.next with
  | none => rfl
  | some p => exact absurd (h.fresh _ _ hg) (Nat.lt_irrefl _)

theorem Indexed.take (h : t.Indexed) (ht : t.take? id = some (p, u)) : u.Indexed where
  fresh j q hq := by
    rw [get?_take ht] at hq
    rw [next_take ht]
    split at hq
    · cases hq
    · exact h.fresh j q hq
  waiters key j := by
    rw [mem_waitersOf_take ht, h.waiters, get?_take ht]
    by_cases hj : j = id
    · subst hj
      rw [take?_eq_some ht]
      simp
    · simp [hj]
  producers key j := by
    rw [producer?_take ht, get?_take ht]
    by_cases hkey : product? p.work = some key
    · have hid : t.producer? key = some id := (h.producers key id).mpr ⟨p, take?_eq_some ht, hkey⟩
      rw [if_pos ⟨hkey, hid⟩]
      by_cases hj : j = id
      · simp [hj]
      · rw [if_neg hj, ← h.producers key j, hid]
        simp [@eq_comm _ id j, hj]
    · rw [if_neg fun hand => hkey hand.1, h.producers]
      by_cases hj : j = id
      · subst hj
        rw [take?_eq_some ht]
        simp [hkey]
      · rw [if_neg hj]

/-- What has been taken out has no producer left. -/
theorem Indexed.producer?_take_eq_none (h : t.Indexed) (ht : t.take? id = some (p, u))
    (hkey : product? p.work = some key) : u.producer? key = none := by
  have hid : t.producer? key = some id := (h.producers key id).mpr ⟨p, take?_eq_some ht, hkey⟩
  rw [producer?_take ht, if_pos ⟨hkey, hid⟩]

theorem Indexed.reinsert (h : t.Indexed) (hlt : id < t.next) (hnone : t.get? id = none)
    (hkey : ∀ key, product? p.work = some key → t.producer? key = none) :
    (t.reinsert id p).Indexed where
  fresh j q hq := by
    rw [get?_reinsert] at hq
    show j < t.next
    split at hq
    · rename_i hj
      rw [hj]
      exact hlt
    · exact h.fresh j q hq
  waiters key j := by
    rw [mem_waitersOf_reinsert, h.waiters, get?_reinsert]
    by_cases hj : j = id
    · subst hj
      rw [hnone]
      simp
    · simp [hj]
  producers key j := by
    rw [producer?_reinsert, get?_reinsert]
    by_cases hp : product? p.work = some key
    · rw [if_pos hp]
      by_cases hj : j = id
      · simp [hj, hp]
      · rw [if_neg hj, ← h.producers key j, hkey key hp]
        simp [@eq_comm _ id j, hj]
    · rw [if_neg hp, h.producers]
      by_cases hj : j = id
      · subst hj
        rw [hnone]
        simp [hp]
      · rw [if_neg hj]

theorem Indexed.register (h : t.Indexed)
    (hkey : ∀ key, product? p.work = some key → t.producer? key = none) :
    (t.register p).Indexed := by
  have hnext : ({ t with next := t.next + 1 } : PendingTable τ).Indexed :=
    ⟨fun id q hq => Nat.lt_succ_of_lt (h.fresh id q hq), h.waiters, h.producers⟩
  exact hnext.reinsert (Nat.lt_succ_self _) h.get?_next hkey

theorem Indexed.waitingOf?_eq_some (h : t.Indexed) {waiting : List Prerequisite} :
    t.waitingOf? key = some waiting ↔
      ∃ id p, t.get? id = some p ∧ product? p.work = some key ∧ p.waiting = waiting := by
  simp only [waitingOf?, Option.map_eq_some_iff, Option.bind_eq_some_iff]
  constructor
  · rintro ⟨p, ⟨id, hid, hp⟩, rfl⟩
    obtain ⟨q, hq, hkey⟩ := (h.producers key id).mp hid
    rw [hp] at hq
    cases hq
    exact ⟨id, p, hp, hkey, rfl⟩
  · rintro ⟨id, p, hp, hkey, rfl⟩
    exact ⟨p, ⟨id, (h.producers key id).mpr ⟨p, hp, hkey⟩, hp⟩, rfl⟩

end Assembler.PendingTable
