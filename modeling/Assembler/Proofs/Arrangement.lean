import Assembler.Proofs.Attempt
/-!
Changes of the layout while statements are carried out.

The places of counters are in terms of existing spaces, and no two counters start with the same space
(`Layout.Formed`). A change of the layout keeps this, adds spaces without a length, and leaves at most one
job to be done, for a new space (`Layout.Arranges`). So the starts of further counters have no jobs before
the counters are placed, and then each gets one job (`Layout.pairwise_placements`).
-/

namespace Assembler

/-! ## 1. Further spaces -/

/-- The only further space is the next one. -/
theorem SpaceId.eq_of_lt_succ {s : SpaceId} {size : Nat} (hle : size ≤ s.index) (hlt : s.index < size + 1) :
    s = ⟨size⟩ := by
  cases s
  exact congrArg SpaceId.mk (Nat.le_antisymm (Nat.le_of_lt_succ hlt) hle)

namespace Spaces

/-- Whether `b` is `a` with further spaces that have no length. -/
inductive Grows (a : Spaces) : Spaces → Prop
  | refl : Grows a a
  | create {b : Spaces} (kind : SpaceKind) (counter : CounterId) (guarantee : Alignment) :
    Grows a b → Grows a (b.create kind counter guarantee).2

variable {a b c : Spaces}

theorem Grows.trans (h : a.Grows b) (h' : b.Grows c) : a.Grows c := by
  induction h' with
  | refl => exact h
  | create kind counter guarantee _ ih => exact .create kind counter guarantee ih

theorem Grows.earlier (h : a.Grows b) : a.Earlier b := by
  induction h with
  | refl => exact .refl a
  | create kind counter guarantee _ ih => exact ih.trans (earlier_create _ kind counter guarantee)

theorem Grows.length? (h : a.Grows b) (s : SpaceId) : b.length? s = a.length? s := by
  induction h with
  | refl => rfl
  | create kind counter guarantee _ ih => rw [length?_create, ih]

theorem Grows.isResolved (h : a.Grows b) (s : SpaceId) : b.isResolved s = a.isResolved s :=
  congrArg Option.isSome (h.length? s)

theorem Grows.acyclic (h : a.Grows b) (ha : a.Acyclic) : b.Acyclic := by
  induction h with
  | refl => exact ha
  | create kind counter guarantee _ ih => exact ih.create kind counter guarantee

theorem Grows.closed (h : a.Grows b) (ha : a.Closed) : b.Closed := by
  induction h with
  | refl => exact ha
  | create kind counter guarantee _ ih => exact ih.create kind counter guarantee

end Spaces

/-! ## 2. Counters and sections -/

/-- Whether the places of a counter are in terms of existing spaces. -/
structure Counter.Placed (a : Spaces) (c : Counter) : Prop where
  origin : c.origin.LiesIn a
  position : c.position.LiesIn a
  marks : ∀ x ∈ c.marks, x.LiesIn a
  start : ∀ s, c.start? = some s → a.kind? s = some .counterStart

theorem Counter.Placed.later {a b : Spaces} {c : Counter} (h : c.Placed a) (hab : a.Earlier b) :
    c.Placed b where
  origin := h.origin.later hab
  position := h.position.later hab
  marks x hx := (h.marks x hx).later hab
  start s hs := hab.kind? (h.start s hs)

/-- The elements of a list with one more element. -/
theorem getElem?_concat_eq_some {α : Type} {l : List α} {a x : α} {i : Nat} :
    (l ++ [a])[i]? = some x ↔ l[i]? = some x ∨ (i = l.length ∧ x = a) := by
  rw [List.getElem?_append]
  split
  · exact ⟨.inl, fun h => h.resolve_right fun hand => by omega⟩
  · rename_i hi
    have hnone : l[i]? = none := List.getElem?_eq_none (by omega)
    rw [List.getElem?_singleton, hnone]
    split
    · constructor
      · intro h
        cases h
        exact .inr ⟨by omega, rfl⟩
      · rintro (h | ⟨-, rfl⟩)
        · cases h
        · rfl
    · refine iff_of_false (fun h => nomatch h) ?_
      rintro (h | ⟨h, -⟩)
      · cases h
      · omega

namespace Layout

/-- What holds of a layout however it came about. -/
structure Formed (l : Layout) : Prop where
  places : ∀ (i : Nat) (c : Counter), l.counters[i]? = some c → c.Placed l.spaces
  current : ∀ c : CounterId, l.current? = some c → c.index < l.counters.length
  active : ∀ (i : Nat) (sect : Section), l.sections[i]? = some sect →
    sect.active.index < l.counters.length
  owned : ∀ (i : Nat) (sect : Section), l.sections[i]? = some sect → sect.counters.Nodup ∧
    ∀ c ∈ sect.counters, ∃ counter : Counter, l.counters[c.index]? = some counter ∧
      counter.sectionId = ⟨i⟩
  listed : ∀ (j : Nat) (c : Counter), l.counters[j]? = some c → ∃ sect : Section,
    l.sections[c.sectionId.index]? = some sect ∧ (⟨j⟩ : CounterId) ∈ sect.counters ∧
      (c.start?.isSome → (⟨j⟩ : CounterId) ∈ sect.counters.tail)
  starts : ∀ (i j : Nat) (c d : Counter) (s : SpaceId), l.counters[i]? = some c →
    l.counters[j]? = some d → c.start? = some s → d.start? = some s → i = j
  /-- Every counter of a section but the first one begins with a space. -/
  begun : ∀ (i : Nat) (sect : Section), l.sections[i]? = some sect → ∀ id ∈ sect.counters.tail,
    ∃ (c : Counter) (s : SpaceId), l.counters[id.index]? = some c ∧ c.start? = some s ∧
      c.origin = (Address.start ⟨i⟩).addSpace s 1

theorem formed_new (boundary : Nat) : (new boundary).Formed where
  places _ _ h := nomatch h
  current _ h := nomatch h
  active _ _ h := nomatch h
  owned _ _ h := nomatch h
  listed _ _ h := nomatch h
  starts _ _ _ _ _ h := nomatch h
  begun _ _ h := nomatch h

/-- Whether some counter starts with a space. -/
def HasStart (l : Layout) (s : SpaceId) : Prop :=
  ∃ (i : Nat) (c : Counter), l.counters[i]? = some c ∧ c.start? = some s

/-- Whether `l'` comes from `l` by a change that leaves the job to be done, if there is one. -/
structure Arranges (l l' : Layout) (job? : Option Job) : Prop where
  grows : l.spaces.Grows l'.spaces
  formed : l.Formed → l'.Formed
  starts : l.Formed → ∀ s, l'.HasStart s → l.HasStart s ∨
    (l.spaces.size ≤ s.index ∧ ∀ job rule, job? = some job → job.task ≠ .space s rule)
  kept : ∀ s, l.HasStart s → l'.HasStart s
  job : ∀ job, job? = some job → job.Scoped l'.spaces ∧
    ∃ s rule, job.task = .space s rule ∧ l.spaces.size ≤ s.index
  /-- A further space has the job, unless it is the start of a counter. -/
  further : ∀ s : SpaceId, l.spaces.size ≤ s.index → s.index < l'.spaces.size →
    l'.HasStart s ∨ ∃ job rule, job? = some job ∧ job.task = .space s rule

variable {l l' l'' : Layout} {job? : Option Job}

/-- The start of a counter is there for that reason. -/
theorem Formed.kind?_of_hasStart (h : l.Formed) {s : SpaceId} (hs : l.HasStart s) :
    l.spaces.kind? s = some .counterStart := by
  obtain ⟨i, c, hc, hcs⟩ := hs
  exact (h.places i c hc).start s hcs

theorem Formed.lt_size_of_hasStart (h : l.Formed) {s : SpaceId} (hs : l.HasStart s) :
    s.index < l.spaces.size := Spaces.lt_size_of_kind? (h.kind?_of_hasStart hs)

/-- A change that adds no space. -/
theorem Arranges.of_spaces (hspaces : l'.spaces = l.spaces)
    (hstart : ∀ s, l'.HasStart s ↔ l.HasStart s) (hformed : l.Formed → l'.Formed) :
    l.Arranges l' none where
  grows := by
    rw [hspaces]
    exact .refl
  formed := hformed
  starts _ s hs := .inl ((hstart s).mp hs)
  kept s hs := (hstart s).mpr hs
  job _ h := nomatch h
  further s hs hlt := by
    rw [hspaces] at hlt
    exact absurd hlt (Nat.not_lt.mpr hs)

theorem Arranges.refl (l : Layout) : l.Arranges l none := .of_spaces rfl (fun _ => Iff.rfl) id

theorem Arranges.trans (h : l.Arranges l' none) (h' : l'.Arranges l'' job?) :
    l.Arranges l'' job? where
  grows := h.grows.trans h'.grows
  formed := h'.formed ∘ h.formed
  starts hl s hs := by
    have hle := h.grows.earlier.size_le
    rcases h'.starts (h.formed hl) s hs with hs | ⟨hnew, hother⟩
    · rcases h.starts hl s hs with hold | ⟨hnew, -⟩
      · exact .inl hold
      · -- The start existed before the space of the job.
        refine .inr ⟨hnew, fun job rule hjob htask => ?_⟩
        obtain ⟨-, s', rule', htask', hnew'⟩ := h'.job job hjob
        rw [htask] at htask'
        cases htask'
        have hlt := (h.formed hl).lt_size_of_hasStart hs
        omega
    · exact .inr ⟨by omega, hother⟩
  kept s hs := h'.kept s (h.kept s hs)
  job job hjob := by
    have hle := h.grows.earlier.size_le
    obtain ⟨hscoped, s, rule, htask, hnew⟩ := h'.job job hjob
    exact ⟨hscoped, s, rule, htask, by omega⟩
  further s hs hlt := by
    -- The first change leaves no job, so each of its spaces is a start.
    by_cases hmid : s.index < l'.spaces.size
    · rcases h.further s hs hmid with hstart | ⟨job, rule, hjob, -⟩
      · exact .inl (h'.kept s hstart)
      · cases hjob
    · exact h'.further s (Nat.le_of_not_lt hmid) hlt

/-! ### Sections -/

theorem Formed.createSection (h : l.Formed) (name? : Option Name) (kind : SectionKind) :
    (l.createSection name? kind).2.Formed where
  places i c hc := by
    rcases getElem?_concat_eq_some.mp hc with hc | ⟨-, rfl⟩
    · exact h.places i c hc
    · have hstart : (Address.start ⟨l.sections.length⟩).LiesIn l.spaces := Address.liesIn_of_spaces_nil rfl
      exact ⟨hstart, hstart, fun _ hx => (nomatch hx), fun _ hs => (nomatch hs)⟩
  current c hc := by
    cases hc
    rw [Layout.createSection, List.length_append]
    exact Nat.lt_succ_self _
  active i sect hsect := by
    rw [Layout.createSection, List.length_append]
    rcases getElem?_concat_eq_some.mp hsect with hsect | ⟨-, rfl⟩
    · exact Nat.lt_succ_of_lt (h.active i sect hsect)
    · exact Nat.lt_succ_self _
  owned i sect hsect := by
    rcases getElem?_concat_eq_some.mp hsect with hsect | ⟨hi, rfl⟩
    · obtain ⟨hnodup, hmem⟩ := h.owned i sect hsect
      refine ⟨hnodup, fun c hc => ?_⟩
      obtain ⟨counter, hcounter, hid⟩ := hmem c hc
      exact ⟨counter, getElem?_concat_eq_some.mpr (.inl hcounter), hid⟩
    · refine ⟨List.pairwise_singleton _ _, fun c hc => ?_⟩
      rw [List.mem_singleton.mp hc, hi]
      exact ⟨_, getElem?_concat_eq_some.mpr (.inr ⟨rfl, rfl⟩), rfl⟩
  listed j c hc := by
    rcases getElem?_concat_eq_some.mp hc with hc | ⟨hj, rfl⟩
    · obtain ⟨sect, hsect, hmem⟩ := h.listed j c hc
      exact ⟨sect, getElem?_concat_eq_some.mpr (.inl hsect), hmem⟩
    · refine ⟨_, getElem?_concat_eq_some.mpr (.inr ⟨rfl, rfl⟩), ?_, fun hs => nomatch hs⟩
      rw [hj]
      exact List.mem_singleton_self _
  -- The first counter of a section starts with no space.
  starts i j c d s hc hd hcs hds := by
    rcases getElem?_concat_eq_some.mp hc with hc | ⟨-, rfl⟩
    · rcases getElem?_concat_eq_some.mp hd with hd | ⟨-, rfl⟩
      · exact h.starts i j c d s hc hd hcs hds
      · cases hds
    · cases hcs
  begun i sect hsect id hid := by
    rcases getElem?_concat_eq_some.mp hsect with hsect | ⟨-, rfl⟩
    · obtain ⟨c, s, hc, hbegun⟩ := h.begun i sect hsect id hid
      exact ⟨c, s, getElem?_concat_eq_some.mpr (.inl hc), hbegun⟩
    · cases hid

theorem arranges_createSection (l : Layout) (name? : Option Name) (kind : SectionKind) :
    l.Arranges (l.createSection name? kind).2 none := by
  refine .of_spaces rfl (fun s => ⟨?_, ?_⟩) fun h => h.createSection name? kind
  · rintro ⟨i, c, hc, hs⟩
    rcases getElem?_concat_eq_some.mp hc with hc | ⟨-, rfl⟩
    · exact ⟨i, c, hc, hs⟩
    · cases hs
  · rintro ⟨i, c, hc, hs⟩
    exact ⟨i, c, getElem?_concat_eq_some.mpr (.inl hc), hs⟩

theorem arranges_ensureSection (l : Layout) : l.Arranges l.ensureSection none := by
  unfold ensureSection
  split
  · exact .refl l
  · exact arranges_createSection l none .executable

/-- After that some counter is in use. -/
theorem exists_current_ensureSection (l : Layout) : ∃ c, l.ensureSection.current? = some c := by
  unfold ensureSection
  split
  · exact ⟨_, ‹_›⟩
  · exact ⟨_, rfl⟩

theorem ensureSection_of_current? {id : CounterId} (hid : l.current? = some id) : l.ensureSection = l := by
  rw [ensureSection, hid]

theorem arranges_resumeSection (l : Layout) (s : SectionId) :
    l.Arranges (l.resumeSection s) none := by
  unfold resumeSection
  split
  · rename_i sect hsect
    refine .of_spaces rfl (fun _ => Iff.rfl) fun h => { h with current := fun c hc => ?_ }
    cases hc
    exact h.active s.index sect hsect
  · exact .refl l

theorem getElem?_modify_eq_some {α : Type} {f : α → α} {xs : List α} {i j : Nat} {y : α}
    (h : (xs.modify i f)[j]? = some y) :
    ∃ x, xs[j]? = some x ∧ y = if i = j then f x else x := by
  rw [List.getElem?_modify] at h
  obtain ⟨x, hx, rfl⟩ := Option.map_eq_some_iff.mp h
  exact ⟨x, hx, rfl⟩

theorem getElem?_modify {α : Type} {f : α → α} {xs : List α} {i j : Nat} {x : α}
    (h : xs[j]? = some x) : (xs.modify i f)[j]? = some (if i = j then f x else x) := by
  rw [List.getElem?_modify, h]
  rfl

theorem arranges_resumeCounter (l : Layout) (c : CounterId) :
    l.Arranges (l.resumeCounter c) none := by
  unfold resumeCounter
  split
  · rename_i counter hcounter
    have hlt : c.index < l.counters.length := (List.getElem?_eq_some_iff.mp hcounter).1
    exact .of_spaces rfl (fun _ => Iff.rfl) fun h => { h with
      current := fun d hd => by
        cases hd
        exact hlt
      active := fun i sect hsect => by
        obtain ⟨old, hold, rfl⟩ := getElem?_modify_eq_some hsect
        split
        · exact hlt
        · exact h.active i old hold
      owned := fun i sect hsect => by
        obtain ⟨old, hold, rfl⟩ := getElem?_modify_eq_some hsect
        split <;> exact h.owned i old hold
      listed := fun j d hd => by
        obtain ⟨sect, hsect, hmem⟩ := h.listed j d hd
        refine ⟨_, getElem?_modify hsect, ?_⟩
        split <;> exact hmem
      begun := fun i sect hsect => by
        obtain ⟨old, hold, rfl⟩ := getElem?_modify_eq_some hsect
        split <;> exact h.begun i old hold }
  · exact .refl l

/-! ### The counter in use -/

theorem start?_modifyCurrent {f : Counter → Counter} (hstart : ∀ c, (f c).start? = c.start?)
    {i : Nat} {c : Counter} (hc : (l.modifyCurrent f).counters[i]? = some c) :
    ∃ d, l.counters[i]? = some d ∧ c.start? = d.start? := by
  unfold modifyCurrent at hc
  split at hc
  · obtain ⟨old, hold, rfl⟩ := getElem?_modify_eq_some hc
    refine ⟨old, hold, ?_⟩
    split
    · exact hstart old
    · rfl
  · exact ⟨c, hc, rfl⟩

theorem hasStart_modifyCurrent {f : Counter → Counter} (hstart : ∀ c, (f c).start? = c.start?)
    (s : SpaceId) : (l.modifyCurrent f).HasStart s ↔ l.HasStart s := by
  constructor
  · rintro ⟨i, c, hc, hs⟩
    obtain ⟨d, hd, hds⟩ := start?_modifyCurrent hstart hc
    exact ⟨i, d, hd, hds ▸ hs⟩
  · rintro ⟨i, c, hc, hs⟩
    unfold modifyCurrent
    split
    · refine ⟨i, _, getElem?_modify hc, ?_⟩
      split
      · exact (hstart c).trans hs
      · exact hs
    · exact ⟨i, c, hc, hs⟩

theorem spaces_modifyCurrent (l : Layout) (f : Counter → Counter) :
    (l.modifyCurrent f).spaces = l.spaces ∧ (l.modifyCurrent f).current? = l.current? := by
  unfold modifyCurrent
  split <;> exact ⟨rfl, rfl⟩

/-- A change of the counter in use that leaves its section, its start and its origin alone. -/
theorem arranges_modifyCurrent (l : Layout) {f : Counter → Counter}
    (hid : ∀ c, (f c).sectionId = c.sectionId) (hstart : ∀ c, (f c).start? = c.start?)
    (horigin : ∀ c, (f c).origin = c.origin)
    (hplaced : ∀ c, c.Placed l.spaces → (f c).Placed l.spaces) :
    l.Arranges (l.modifyCurrent f) none := by
  refine .of_spaces (spaces_modifyCurrent l f).1 (hasStart_modifyCurrent hstart) fun h => ?_
  have starts := @start?_modifyCurrent l f hstart
  unfold modifyCurrent at starts ⊢
  split at starts
  · exact {
      places := fun i c hc => by
        obtain ⟨old, hold, rfl⟩ := getElem?_modify_eq_some hc
        split
        · exact hplaced old (h.places i old hold)
        · exact h.places i old hold
      current := fun c hc => by
        rw [List.length_modify]
        exact h.current c hc
      active := fun i sect hsect => by
        rw [List.length_modify]
        exact h.active i sect hsect
      owned := fun i sect hsect => by
        obtain ⟨hnodup, hmem⟩ := h.owned i sect hsect
        refine ⟨hnodup, fun c hc => ?_⟩
        obtain ⟨counter, hcounter, hsid⟩ := hmem c hc
        refine ⟨_, getElem?_modify hcounter, ?_⟩
        split
        · exact (hid counter).trans hsid
        · exact hsid
      -- A counter is found by its place in the list, which a change in place leaves alone.
      listed := fun j c hc => by
        obtain ⟨old, hold, rfl⟩ := getElem?_modify_eq_some hc
        split
        · rw [hid, hstart]
          exact h.listed j old hold
        · exact h.listed j old hold
      starts := fun i j c d s hc hd hcs hds => by
        obtain ⟨c', hc', hcs'⟩ := starts hc
        obtain ⟨d', hd', hds'⟩ := starts hd
        exact h.starts i j c' d' s hc' hd' (hcs' ▸ hcs) (hds' ▸ hds)
      begun := fun i sect hsect id hid => by
        obtain ⟨c, s, hc, hcs, hcorigin⟩ := h.begun i sect hsect id hid
        refine ⟨_, s, getElem?_modify hc, ?_⟩
        split
        · exact ⟨(hstart c).trans hcs, (horigin c).trans hcorigin⟩
        · exact ⟨hcs, hcorigin⟩ }
  · exact h

theorem arranges_reserve (l : Layout) (n : Int32) : l.Arranges (l.reserve n) none := by
  refine (arranges_ensureSection l).trans ?_
  refine arranges_modifyCurrent _ (fun _ => rfl) (fun _ => rfl) (fun _ => rfl) fun c hc => ?_
  exact ⟨hc.origin, hc.position, hc.marks, hc.start⟩

theorem placed_mark {c : Counter} {a : Spaces} (hc : c.Placed a) : (c.mark a).Placed a := by
  unfold Counter.mark
  split
  · exact hc
  · refine ⟨hc.origin, hc.position, fun x hx => ?_, hc.start⟩
    rcases List.mem_append.mp hx with hx | hx
    · exact hc.marks x (List.mem_filter.mp hx).1
    · rw [List.mem_singleton.mp hx]
      exact hc.position

theorem fields_mark (c : Counter) (a : Spaces) :
    (c.mark a).sectionId = c.sectionId ∧ (c.mark a).start? = c.start? ∧
      (c.mark a).origin = c.origin := by
  unfold Counter.mark
  split <;> exact ⟨rfl, rfl, rfl⟩

theorem position_mark (c : Counter) (a : Spaces) : (c.mark a).position = c.position := by
  unfold Counter.mark
  split <;> rfl

theorem arranges_mark (l : Layout) :
    l.Arranges (l.modifyCurrent (·.mark l.spaces)) none :=
  arranges_modifyCurrent l (fun c => (fields_mark c _).1) (fun c => (fields_mark c _).2.1)
    (fun c => (fields_mark c _).2.2) fun _ hc => placed_mark hc

theorem arranges_moveTo (l : Layout) {target : Address} (ht : target.LiesIn l.spaces) :
    l.Arranges (l.moveTo target) none := by
  have hgrow := (arranges_ensureSection l).grows.earlier
  refine (arranges_ensureSection l).trans ?_
  refine arranges_modifyCurrent _ (fun c => (fields_mark c _).1) (fun c => (fields_mark c _).2.1)
    (fun c => (fields_mark c _).2.2) fun c hc => ?_
  have hm := placed_mark hc
  exact ⟨hm.origin, ht.later hgrow, hm.marks, hm.start⟩

/-! ### Further spaces and counters -/

theorem Formed.create (h : l.Formed) (kind : SpaceKind) (c : CounterId) (g : Alignment) :
    { l with spaces := (l.spaces.create kind c g).2 }.Formed :=
  { h with places := fun i d hd => (h.places i d hd).later (Spaces.earlier_create _ kind c g) }

theorem spaces_ensureSection (l : Layout) : l.ensureSection.spaces = l.spaces := by
  unfold ensureSection
  split <;> rfl

theorem passSpace_eq (l : Layout) (kind : SpaceKind) (g : Alignment) {c : CounterId}
    (hc : l.ensureSection.current? = some c) :
    l.passSpace kind g = (⟨l.ensureSection.spaces.size⟩,
      ({ l.ensureSection with
        spaces := (l.ensureSection.spaces.create kind c
          (if l.ensureSection.originImplies g then g else .any)).2 } : Layout).modifyCurrent
        (·.pass ⟨l.ensureSection.spaces.size⟩)) := by
  unfold passSpace
  dsimp only
  split
  · rename_i hnone
    rw [hnone] at hc
    cases hc
  · rename_i c' hc'
    rw [hc'] at hc
    cases hc
    rfl

theorem kind?_passSpace (l : Layout) (kind : SpaceKind) (g : Alignment) :
    (l.passSpace kind g).2.spaces.kind? (l.passSpace kind g).1 = some kind := by
  obtain ⟨c, hc⟩ := exists_current_ensureSection l
  rw [passSpace_eq l kind g hc, (spaces_modifyCurrent _ _).1]
  exact Spaces.kind?_create _ _ _ _

theorem earlier_passSpace (l : Layout) (kind : SpaceKind) (g : Alignment) :
    l.spaces.Earlier (l.passSpace kind g).2.spaces := by
  obtain ⟨c, hc⟩ := exists_current_ensureSection l
  rw [passSpace_eq l kind g hc, (spaces_modifyCurrent _ _).1, ← spaces_ensureSection l]
  exact Spaces.earlier_create _ _ _ _

theorem arranges_passSpace (l : Layout) (g : Alignment) {rule : SpaceRule}
    (hr : rule.Scoped l.spaces) {f : Frame} (hf : f.Scoped l.spaces) :
    l.Arranges (l.passSpace rule.kind g).2
      (some ⟨.space (l.passSpace rule.kind g).1 rule, f⟩) := by
  obtain ⟨c, hc⟩ := exists_current_ensureSection l
  have hle := earlier_passSpace l rule.kind g
  have hscoped : Job.Scoped (l.passSpace rule.kind g).2.spaces
      ⟨.space (l.passSpace rule.kind g).1 rule, f⟩ :=
    ⟨hf.later hle, kind?_passSpace l rule.kind g, hr.later hle⟩
  refine (arranges_ensureSection l).trans ?_
  rw [passSpace_eq l rule.kind g hc] at hscoped ⊢
  generalize (if l.ensureSection.originImplies g then g else .any) = guarantee at hscoped ⊢
  have hsize := Spaces.size_create l.ensureSection.spaces rule.kind c guarantee
  have hspaces := (spaces_modifyCurrent { l.ensureSection with
    spaces := (l.ensureSection.spaces.create rule.kind c guarantee).2 }
      (·.pass ⟨l.ensureSection.spaces.size⟩)).1
  have hstart := @hasStart_modifyCurrent { l.ensureSection with
    spaces := (l.ensureSection.spaces.create rule.kind c guarantee).2 }
      (·.pass ⟨l.ensureSection.spaces.size⟩) fun _ => rfl
  -- The new space is the only change but that of the position, and its job is the one left.
  exact {
    grows := by
      rw [hspaces]
      exact .create rule.kind c guarantee .refl
    formed := fun h => by
      refine (arranges_modifyCurrent _ (f := (·.pass ⟨l.ensureSection.spaces.size⟩))
        (fun _ => rfl) (fun _ => rfl) (fun _ => rfl) fun d hd => ?_).formed
          (h.create rule.kind c guarantee)
      refine ⟨hd.origin, hd.position.addSpace ?_ 1, hd.marks, hd.start⟩
      rw [hsize]
      exact Nat.lt_succ_self _
    starts := fun _ s hs => .inl ((hstart s).mp hs)
    kept := fun s hs => (hstart s).mpr hs
    job := fun job hjob => by
      cases hjob
      exact ⟨hscoped, _, rule, rfl, Nat.le_refl _⟩
    further := fun s hs hlt => by
      rw [hspaces, hsize] at hlt
      exact .inr ⟨_, rule, rfl, by rw [SpaceId.eq_of_lt_succ hs hlt]⟩ }

theorem spaces_mark (l : Layout) :
    (l.ensureSection.modifyCurrent (·.mark l.ensureSection.spaces)).spaces = l.spaces := by
  rw [(spaces_modifyCurrent _ _).1, spaces_ensureSection]

theorem arranges_jump (l : Layout) {rule : SpaceRule} (hr : rule.Scoped l.spaces) {f : Frame}
    (hf : f.Scoped l.spaces) :
    l.Arranges (l.jump rule.kind).2 (some ⟨.space (l.jump rule.kind).1 rule, f⟩) := by
  rw [← spaces_mark l] at hr hf
  exact ((arranges_ensureSection l).trans (arranges_mark _)).trans (arranges_passSpace _ .any hr hf)

/-- A further counter of section `s`. It begins behind a space of its own. -/
def furtherCounter (l : Layout) (name : Name) (s : SectionId) : Counter :=
  { id := ⟨l.counters.length⟩, name? := some name, sectionId := s,
    origin := (Address.start s).addSpace ⟨l.spaces.size⟩ 1,
    position := (Address.start s).addSpace ⟨l.spaces.size⟩ 1,
    start? := some ⟨l.spaces.size⟩ }

/-- The layout with a further counter in section `s`, which is in use from then on. -/
def addCounter (l : Layout) (name : Name) (s : SectionId) : Layout :=
  { l with
    spaces := (l.spaces.create .counterStart ⟨l.counters.length⟩ l.counterAlignment).2
    counters := l.counters ++ [l.furtherCounter name s]
    sections := l.sections.modify s.index fun sect =>
      { sect with counters := sect.counters ++ [⟨l.counters.length⟩], active := ⟨l.counters.length⟩ }
    current? := some ⟨l.counters.length⟩ }

/-- Creating a counter adds it to the section of the counter in use. -/
theorem createCounter_cases (l : Layout) (name : Name) :
    (l.ensureSection.currentSection? = none ∧ (l.createCounter name).2 = l.ensureSection) ∨
      ∃ s, l.ensureSection.currentSection? = some s ∧
        (l.createCounter name).2 = l.ensureSection.addCounter name s := by
  unfold createCounter
  dsimp only
  cases l.ensureSection.currentSection? with
  | none => exact .inl ⟨rfl, rfl⟩
  | some s => exact .inr ⟨s, rfl, rfl⟩

/-- A counter of the layout with a further counter. -/
theorem getElem?_addCounter {name : Name} {s : SectionId} {i : Nat} {c : Counter} :
    (l.addCounter name s).counters[i]? = some c ↔
      l.counters[i]? = some c ∨ (i = l.counters.length ∧ c = l.furtherCounter name s) :=
  getElem?_concat_eq_some

theorem earlier_addCounter (l : Layout) (name : Name) (s : SectionId) :
    l.spaces.Earlier (l.addCounter name s).spaces := Spaces.earlier_create _ _ _ _

theorem placed_furtherCounter (l : Layout) (name : Name) (s : SectionId) :
    (l.furtherCounter name s).Placed (l.addCounter name s).spaces := by
  have hlt : l.spaces.size < (l.addCounter name s).spaces.size := by
    rw [addCounter, Spaces.size_create]
    exact Nat.lt_succ_self _
  have horigin : (l.furtherCounter name s).origin.LiesIn (l.addCounter name s).spaces :=
    (Address.liesIn_of_spaces_nil rfl).addSpace hlt 1
  refine ⟨horigin, horigin, fun _ hx => (nomatch hx), fun t ht => ?_⟩
  cases ht
  exact Spaces.kind?_create _ _ _ _

section AddCounter

variable {name : Name} {s : SectionId}

theorem Formed.lt_length_of_mem (h : l.Formed) {i : Nat} {sect : Section} (hsect : l.sections[i]? = some sect)
    {c : CounterId} (hc : c ∈ sect.counters) : c.index < l.counters.length := by
  obtain ⟨counter, hcounter, -⟩ := (h.owned i sect hsect).2 c hc
  exact (List.getElem?_eq_some_iff.mp hcounter).1

/-- The section of a counter has that counter, so it is not without counters. -/
theorem Formed.exists_section (h : l.Formed) (hs : l.currentSection? = some s) :
    ∃ sect, l.sections[s.index]? = some sect ∧ sect.counters ≠ [] := by
  obtain ⟨c, hc, rfl⟩ := Option.map_eq_some_iff.mp hs
  obtain ⟨id, -, hid⟩ := Option.bind_eq_some_iff.mp hc
  obtain ⟨sect, hsect, hmem, -⟩ := h.listed id.index c hid
  exact ⟨sect, hsect, List.ne_nil_of_mem hmem⟩

theorem Formed.owned_addCounter (h : l.Formed) (i : Nat) (sect : Section)
    (hsect : (l.addCounter name s).sections[i]? = some sect) :
    sect.counters.Nodup ∧ ∀ c ∈ sect.counters, ∃ counter : Counter,
      (l.addCounter name s).counters[c.index]? = some counter ∧ counter.sectionId = ⟨i⟩ := by
  obtain ⟨old, hold, rfl⟩ := getElem?_modify_eq_some hsect
  obtain ⟨hnodup, hmem⟩ := h.owned i old hold
  have hkept : ∀ c ∈ old.counters, ∃ counter : Counter,
      (l.addCounter name s).counters[c.index]? = some counter ∧ counter.sectionId = ⟨i⟩ := fun c hc => by
    obtain ⟨counter, hcounter, hsection⟩ := hmem c hc
    exact ⟨counter, getElem?_addCounter.mpr (.inl hcounter), hsection⟩
  split
  · rename_i hi
    refine ⟨List.nodup_append.mpr ⟨hnodup, List.pairwise_singleton _ _, ?_⟩, fun c hc => ?_⟩
    · rintro c hc d hd rfl
      have hlt := h.lt_length_of_mem hold hc
      rw [List.mem_singleton.mp hd] at hlt
      exact Nat.lt_irrefl _ hlt
    · rcases List.mem_append.mp hc with hc | hc
      · exact hkept c hc
      · rw [List.mem_singleton.mp hc]
        exact ⟨_, getElem?_addCounter.mpr (.inr ⟨rfl, rfl⟩), by rw [← hi]; rfl⟩
  · exact ⟨hnodup, hkept⟩

theorem Formed.listed_addCounter (h : l.Formed) (hs : l.currentSection? = some s) (j : Nat) (c : Counter)
    (hc : (l.addCounter name s).counters[j]? = some c) :
    ∃ sect : Section, (l.addCounter name s).sections[c.sectionId.index]? = some sect ∧
      (⟨j⟩ : CounterId) ∈ sect.counters ∧ (c.start?.isSome → (⟨j⟩ : CounterId) ∈ sect.counters.tail) := by
  rcases getElem?_addCounter.mp hc with hc | ⟨rfl, rfl⟩
  · obtain ⟨sect, hsect, hmem, htail⟩ := h.listed j c hc
    refine ⟨_, getElem?_modify hsect, ?_⟩
    split
    · refine ⟨List.mem_append_left _ hmem, fun hstart => ?_⟩
      rw [List.tail_append_of_ne_nil (List.ne_nil_of_mem hmem)]
      exact List.mem_append_left _ (htail hstart)
    · exact ⟨hmem, htail⟩
  · obtain ⟨sect, hsect, hne⟩ := h.exists_section hs
    have hsection : s.index = (l.furtherCounter name s).sectionId.index := rfl
    refine ⟨_, getElem?_modify hsect, ?_⟩
    rw [if_pos hsection]
    refine ⟨List.mem_append_right _ (List.mem_singleton_self _), fun _ => ?_⟩
    rw [List.tail_append_of_ne_nil hne]
    exact List.mem_append_right _ (List.mem_singleton_self _)

/-- The start of the further counter is a new space, so no other counter begins with it. -/
theorem Formed.starts_addCounter (h : l.Formed) (i j : Nat) (c d : Counter) (t : SpaceId)
    (hc : (l.addCounter name s).counters[i]? = some c) (hd : (l.addCounter name s).counters[j]? = some d)
    (hct : c.start? = some t) (hdt : d.start? = some t) : i = j := by
  rcases getElem?_addCounter.mp hc with hc | ⟨hi, rfl⟩ <;>
    rcases getElem?_addCounter.mp hd with hd | ⟨hj, rfl⟩
  · exact h.starts i j c d t hc hd hct hdt
  · cases hdt
    exact absurd (h.lt_size_of_hasStart ⟨i, c, hc, hct⟩) (Nat.lt_irrefl _)
  · cases hct
    exact absurd (h.lt_size_of_hasStart ⟨j, d, hd, hdt⟩) (Nat.lt_irrefl _)
  · rw [hi, hj]

theorem Formed.begun_addCounter (h : l.Formed) (hs : l.currentSection? = some s) (i : Nat) (sect : Section)
    (hsect : (l.addCounter name s).sections[i]? = some sect) (id : CounterId) (hid : id ∈ sect.counters.tail) :
    ∃ (c : Counter) (t : SpaceId), (l.addCounter name s).counters[id.index]? = some c ∧
      c.start? = some t ∧ c.origin = (Address.start ⟨i⟩).addSpace t 1 := by
  obtain ⟨old, hold, rfl⟩ := getElem?_modify_eq_some hsect
  have hkept (hid : id ∈ old.counters.tail) : ∃ (c : Counter) (t : SpaceId),
      (l.addCounter name s).counters[id.index]? = some c ∧ c.start? = some t ∧
        c.origin = (Address.start ⟨i⟩).addSpace t 1 := by
    obtain ⟨c, t, hc, hbegun⟩ := h.begun i old hold id hid
    exact ⟨c, t, getElem?_addCounter.mpr (.inl hc), hbegun⟩
  split at hid
  · rename_i hi
    obtain ⟨sect, hsect, hne⟩ := h.exists_section hs
    obtain rfl : sect = old := Option.some.inj (hsect.symm.trans (hi ▸ hold))
    -- The section has a counter, so the further one is not its first.
    rw [List.tail_append_of_ne_nil hne] at hid
    rcases List.mem_append.mp hid with hid | hid
    · exact hkept hid
    · rw [List.mem_singleton.mp hid]
      exact ⟨_, _, getElem?_addCounter.mpr (.inr ⟨rfl, rfl⟩), rfl, by rw [← hi]; rfl⟩
  · exact hkept hid

theorem Formed.addCounter (h : l.Formed) (hs : l.currentSection? = some s) : (l.addCounter name s).Formed where
  places i c hc := by
    rcases getElem?_addCounter.mp hc with hc | ⟨-, rfl⟩
    · exact (h.places i c hc).later (l.earlier_addCounter name s)
    · exact l.placed_furtherCounter name s
  current c hc := by
    cases hc
    rw [Layout.addCounter, List.length_append]
    exact Nat.lt_succ_self _
  active i sect hsect := by
    obtain ⟨old, hold, rfl⟩ := getElem?_modify_eq_some hsect
    rw [Layout.addCounter, List.length_append]
    split
    · exact Nat.lt_succ_self _
    · exact Nat.lt_succ_of_lt (h.active i old hold)
  owned := h.owned_addCounter
  listed := h.listed_addCounter hs
  starts := h.starts_addCounter
  begun := h.begun_addCounter hs

theorem arranges_addCounter (hs : l.currentSection? = some s) : l.Arranges (l.addCounter name s) none where
  grows := .create _ _ _ .refl
  formed h := h.addCounter hs
  starts _ t ht := by
    obtain ⟨i, c, hc, ht⟩ := ht
    rcases getElem?_addCounter.mp hc with hc | ⟨-, rfl⟩
    · exact .inl ⟨i, c, hc, ht⟩
    · cases ht
      exact .inr ⟨Nat.le_refl _, fun _ _ h => nomatch h⟩
  kept t ht := by
    obtain ⟨i, c, hc, ht⟩ := ht
    exact ⟨i, c, getElem?_addCounter.mpr (.inl hc), ht⟩
  job _ h := nomatch h
  further t ht hlt := by
    have hlt : t.index < l.spaces.size + 1 := (Spaces.size_create _ _ _ _) ▸ hlt
    rw [SpaceId.eq_of_lt_succ ht hlt]
    exact .inl ⟨_, _, getElem?_addCounter.mpr (.inr ⟨rfl, rfl⟩), rfl⟩

end AddCounter

theorem arranges_createCounter (l : Layout) (name : Name) :
    l.Arranges (l.createCounter name).2 none := by
  obtain ⟨-, heq⟩ | ⟨s, hs, heq⟩ := l.createCounter_cases name <;> rw [heq]
  · exact arranges_ensureSection l
  · exact (arranges_ensureSection l).trans (arranges_addCounter hs)

/-! ### Alignment -/

/-- Alignment changes nothing, reserves padding that is known, or makes the padding a space. -/
theorem align_outcome (l : Layout) (alignment : Alignment) :
    l.align alignment = (none, l) ∨ (∃ n, l.align alignment = (none, l.ensureSection.reserve n)) ∨
      l.align alignment =
        (some ⟨(l.ensureSection.passSpace .alignment alignment).1, l.ensureSection.position,
          l.ensureSection.alignmentReference alignment, alignment⟩,
          (l.ensureSection.passSpace .alignment alignment).2) := by
  unfold align
  split
  · exact .inl rfl
  · dsimp only
    split
    · exact .inr (.inl ⟨_, rfl⟩)
    · split
      · exact .inr (.inl ⟨_, rfl⟩)
      · exact .inr (.inr rfl)

theorem arranges_align_none {alignment : Alignment} (h : l.align alignment = (none, l')) :
    l.Arranges l' none := by
  rcases l.align_outcome alignment with heq | ⟨n, heq⟩ | heq <;> rw [heq] at h <;> cases h
  · exact .refl l
  · exact (arranges_ensureSection l).trans (arranges_reserve _ n)

theorem arranges_align_some {alignment : Alignment} {p : Padding}
    (h : l.align alignment = (some p, l')) {f : Frame} (hf : f.Scoped l.spaces) :
    l.Arranges l'
      (some ⟨.space p.space (.padding p.position p.reference p.alignment), f⟩) := by
  rcases l.align_outcome alignment with heq | ⟨n, heq⟩ | heq <;> rw [heq] at h <;> cases h
  have hgrow := (arranges_ensureSection l).grows.earlier
  exact (arranges_ensureSection l).trans
    (@arranges_passSpace l.ensureSection alignment (.padding _ _ alignment) trivial _ (hf.later hgrow))

/-! ## 3. Placing further counters -/

/-- What a placement places. -/
theorem of_placement? {i : SectionId} {previous next : CounterId} {p : Placement}
    (h : l.placement? i previous next = some p) : p.counter = next ∧ ∃ c : Counter,
      l.counters[next.index]? = some c ∧ c.start? = some p.space ∧ p.candidates ≠ [] ∧
        ¬ l.spaces.isResolved p.space := by
  obtain ⟨before, -, h⟩ := Option.bind_eq_some_iff.mp h
  obtain ⟨after, hafter, h⟩ := Option.bind_eq_some_iff.mp h
  obtain ⟨space, hspace, h⟩ := Option.bind_eq_some_iff.mp h
  obtain ⟨_, hguard, h⟩ := Option.bind_eq_some_iff.mp h
  cases h
  refine ⟨rfl, after, hafter, hspace, List.append_ne_nil_of_right_ne_nil _ (List.cons_ne_nil _ _),
    fun hopen => ?_⟩
  rw [hopen] at hguard
  cases hguard

/-- Where the starts of two counters come from. -/
theorem of_mem_placements {p : Placement} (h : p ∈ l.placements) : ∃ (i : Nat) (sect : Section)
    (c : Counter), l.sections[i]? = some sect ∧ p.counter ∈ sect.counters ∧
      l.counters[p.counter.index]? = some c ∧ c.start? = some p.space ∧ p.candidates ≠ [] ∧
        ¬ l.spaces.isResolved p.space := by
  obtain ⟨⟨sect, i⟩, hsect, hp⟩ := List.mem_flatMap.mp h
  obtain ⟨⟨previous, next⟩, hpair, hp⟩ := List.mem_filterMap.mp hp
  have hmem : next ∈ sect.counters := List.mem_of_mem_tail (List.of_mem_zip hpair).2
  obtain ⟨heq, after, hafter, hspace, hcandidates, hopen⟩ := of_placement? hp
  rw [← heq] at hmem hafter
  exact ⟨i, sect, after, List.mem_zipIdx_iff_getElem?.mp hsect, hmem, hafter, hspace, hcandidates,
    hopen⟩

/-- A counter is placed behind the one before it while its start is open. -/
theorem mem_placements {i : SectionId} {sect : Section} {previous next : CounterId}
    {before after : Counter} {s : SpaceId} (hsect : l.section? i = some sect)
    (hpair : (previous, next) ∈ sect.counters.zip sect.counters.tail)
    (hbefore : l.counter? previous = some before) (hafter : l.counter? next = some after)
    (hs : after.start? = some s) (hopen : ¬ l.spaces.isResolved s) :
    ⟨s, next, .start i, before.candidates⟩ ∈ l.placements := by
  have hguard : guard (!l.spaces.isResolved s) = some () := if_pos (by simpa using hopen)
  have hplace : l.placement? i previous next = some ⟨s, next, .start i, before.candidates⟩ :=
    Option.bind_eq_some_iff.mpr ⟨before, hbefore, Option.bind_eq_some_iff.mpr ⟨after, hafter,
      Option.bind_eq_some_iff.mpr ⟨s, hs, Option.bind_eq_some_iff.mpr ⟨(), hguard, rfl⟩⟩⟩⟩
  refine List.mem_flatMap.mpr ⟨(sect, i.index), ?_, ?_⟩
  · exact List.mem_zipIdx_iff_getElem?.mpr hsect
  · exact List.mem_filterMap.mpr ⟨(previous, next), hpair, hplace⟩

/-- Of two counters of a section that follow each other the second begins with a space of its own. -/
theorem Formed.exists_neighbours (h : l.Formed) {i : SectionId} {sect : Section} {j : Nat}
    {previous next : CounterId} (hsect : l.section? i = some sect) (hprevious : sect.counters[j]? = some previous)
    (hnext : sect.counters[j + 1]? = some next) :
    (previous, next) ∈ sect.counters.zip sect.counters.tail ∧ ∃ before after k,
      l.counter? previous = some before ∧ l.counter? next = some after ∧ after.start? = some k ∧
        after.origin = (Address.start i).addSpace k 1 := by
  have htail : sect.counters.tail[j]? = some next := by
    rw [List.getElem?_tail]
    exact hnext
  have hpair : (previous, next) ∈ sect.counters.zip sect.counters.tail :=
    List.mem_of_getElem? (List.getElem?_zip_eq_some.mpr ⟨hprevious, htail⟩)
  obtain ⟨before, hbefore, -⟩ := (h.owned _ sect hsect).2 previous (List.of_mem_zip hpair).1
  obtain ⟨after, k, hafter, hk, horigin⟩ := h.begun _ sect hsect next (List.of_mem_zip hpair).2
  exact ⟨hpair, before, after, k, hbefore, hafter, hk, horigin⟩

/-- The start of every counter is placed while it is open. -/
theorem Formed.exists_placement (h : l.Formed) {s : SpaceId} (hs : l.HasStart s)
    (hopen : ¬ l.spaces.isResolved s) : ∃ p ∈ l.placements, p.space = s := by
  obtain ⟨j, c, hc, hcs⟩ := hs
  obtain ⟨sect, hsect, -, htail⟩ := h.listed j c hc
  have hmem : (⟨j⟩ : CounterId) ∈ (sect.counters.zip sect.counters.tail).map Prod.snd := by
    rw [List.map_snd_zip (by simp)]
    exact htail (by rw [hcs]; rfl)
  obtain ⟨⟨previous, next⟩, hpair, rfl⟩ := List.mem_map.mp hmem
  obtain ⟨before, hbefore, -⟩ := (h.owned _ sect hsect).2 previous (List.of_mem_zip hpair).1
  exact ⟨_, mem_placements hsect hpair hbefore hc hcs hopen, rfl⟩

/-- The counter that is placed belongs to the section. -/
theorem Formed.sectionId_of_placement? (h : l.Formed) {a : Section × Nat} {p : Placement}
    (ha : a ∈ l.sections.zipIdx)
    (hp : ∃ pair ∈ a.1.counters.zip a.1.counters.tail,
      l.placement? ⟨a.2⟩ pair.1 pair.2 = some p) :
    ∃ c, l.counters[p.counter.index]? = some c ∧ c.sectionId = ⟨a.2⟩ := by
  obtain ⟨⟨previous, next⟩, hpair, hp⟩ := hp
  rw [(of_placement? hp).1]
  exact (h.owned a.2 a.1 (List.mem_zipIdx_iff_getElem?.mp ha)).2 next
    (List.mem_of_mem_tail (List.of_mem_zip hpair).2)

/-- No counter is placed twice. -/
theorem pairwise_counter_placements (h : l.Formed) :
    l.placements.Pairwise fun p q => p.counter ≠ q.counter := by
  refine List.pairwise_flatMap.mpr ⟨fun a ha => ?_, ?_⟩
  · obtain ⟨sect, i⟩ := a
    obtain ⟨hnodup, -⟩ := h.owned i sect (List.mem_zipIdx_iff_getElem?.mp ha)
    have htail : sect.counters.tail.Nodup := hnodup.sublist (List.tail_sublist _)
    have hsnd : (sect.counters.zip sect.counters.tail).map Prod.snd = sect.counters.tail :=
      List.map_snd_zip (by simp)
    rw [← hsnd] at htail
    refine List.pairwise_filterMap.mpr ((List.pairwise_map.mp htail).imp fun hne b hb b' hb' => ?_)
    rw [(of_placement? hb).1, (of_placement? hb').1]
    exact hne
  · have hidx : (l.sections.zipIdx.map Prod.snd).Pairwise (· < ·) := by
      rw [List.zipIdx_map_snd]
      exact List.pairwise_lt_range'
    refine (List.pairwise_map.mp hidx).imp_of_mem fun {a b} ha hb hlt p hp q hq heq => ?_
    obtain ⟨c, hc, hcid⟩ := h.sectionId_of_placement? ha (List.mem_filterMap.mp hp)
    obtain ⟨d, hd, hdid⟩ := h.sectionId_of_placement? hb (List.mem_filterMap.mp hq)
    rw [heq, hd] at hc
    cases hc
    rw [hcid] at hdid
    have : a.2 = b.2 := congrArg SectionId.index hdid
    omega

/-- Every start is placed once. -/
theorem pairwise_placements (h : l.Formed) :
    l.placements.Pairwise fun p q => p.space ≠ q.space := by
  refine (pairwise_counter_placements h).imp_of_mem fun {p q} hp hq hne heq => hne ?_
  obtain ⟨_, _, c, -, -, hc, hcs, -⟩ := of_mem_placements hp
  obtain ⟨_, _, d, -, -, hd, hds, -⟩ := of_mem_placements hq
  rw [← heq] at hds
  have hindex := h.starts _ _ c d _ hc hd hcs hds
  cases hp : p.counter
  cases hq : q.counter
  simp_all

end Layout

end Assembler
