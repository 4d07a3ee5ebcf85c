import Assembler.Proofs.NormalForm
/-!
Outcomes of computations.

A computation ends with a value, has to wait or meets a fault, and a composition waits just if one of its
parts does. When one state of an assembly is later than another (`Assembly.Earlier`), a computation that is
made in both may find more known in the second. What stays the same are the sections and spaces of values
that are not known in full (`Value.SameShape`), and they decide which further computations have to wait.
-/

namespace Assembler

/-! ## 1. Results of computations -/

namespace Evaluation

variable {α β : Type}

/-- Whether a computation has to wait. -/
def IsBlocked (x : Evaluation α) : Prop := ∃ waiting, x = blocked waiting

/-- Whether a computation meets a fault. -/
def IsFault (x : Evaluation α) : Prop := ∃ a fault, x = fallback a fault

@[simp] theorem not_isFault_resolved (a : α) : ¬ (resolved a).IsFault := by
  rintro ⟨_, _, h⟩; cases h

@[simp] theorem not_isFault_blocked (ps : List Prerequisite) : ¬ (blocked ps : Evaluation α).IsFault := by
  rintro ⟨_, _, h⟩; cases h

@[simp] theorem isFault_fallback (a : α) (fault : Fault) : (fallback a fault).IsFault := ⟨a, fault, rfl⟩

theorem not_isBlocked_of_resolved {x : Evaluation α} {a : α} (h : x = resolved a) : ¬ x.IsBlocked := by
  rintro ⟨waiting, hwaiting⟩
  cases h.symm.trans hwaiting

theorem not_isBlocked_of_fallback {x : Evaluation α} {a : α} {fault : Fault} (h : x = fallback a fault) :
    ¬ x.IsBlocked := by
  rintro ⟨waiting, hwaiting⟩
  cases h.symm.trans hwaiting

theorem mem_union {ps qs : List Prerequisite} {p : Prerequisite} :
    p ∈ union ps qs ↔ p ∈ ps ∨ p ∈ qs := by
  unfold union
  induction qs generalizing ps with
  | nil => simp
  | cons q qs ih =>
    rw [List.foldl_cons, ih, List.mem_cons]
    split
    · constructor
      · rintro (h | h)
        · exact .inl h
        · exact .inr (.inr h)
      · rintro (h | rfl | h)
        · exact .inl h
        · exact .inl ‹_›
        · exact .inr h
    · rw [List.mem_append, List.mem_singleton, or_assoc]

theorem map_eq_blocked {f : α → β} {x : Evaluation α} {waiting : List Prerequisite} :
    x.map f = blocked waiting ↔ x = blocked waiting := by
  cases x <;> simp [map]

theorem map_eq_resolved {f : α → β} {x : Evaluation α} {b : β} :
    x.map f = resolved b ↔ ∃ a, x = resolved a ∧ f a = b := by
  cases x <;> simp [map]

theorem ofExcept_eq_resolved {x : Except (List SpaceId) α} {a : α} : ofExcept x = resolved a ↔ x = .ok a := by
  cases x <;> simp [ofExcept, blockedOn]

theorem ofExcept_eq_blocked {x : Except (List SpaceId) α} {waiting : List Prerequisite} :
    ofExcept x = blocked waiting ↔ ∃ spaces, x = .error spaces ∧ spaces.map .space = waiting := by
  cases x <;> simp [ofExcept, blockedOn]

theorem isBlocked_map {f : α → β} {x : Evaluation α} : (x.map f).IsBlocked ↔ x.IsBlocked :=
  exists_congr fun _ => map_eq_blocked

theorem andThen_eq_blocked {instead : β} {f : α → Evaluation β} {x : Evaluation α}
    {waiting : List Prerequisite} :
    x.andThen instead f = blocked waiting ↔
      x = blocked waiting ∨ ∃ a, x = resolved a ∧ f a = blocked waiting := by
  cases x <;> simp [andThen]

theorem andThen_eq_resolved {instead : β} {f : α → Evaluation β} {x : Evaluation α} {b : β} :
    x.andThen instead f = resolved b ↔ ∃ a, x = resolved a ∧ f a = resolved b := by
  cases x <;> simp [andThen]

theorem both_eq_resolved {x : Evaluation α} {y : Evaluation β} {v : α × β} :
    x.both y = resolved v ↔ x = resolved v.1 ∧ y = resolved v.2 := by
  obtain ⟨a, b⟩ := v
  cases x <;> cases y <;> simp [both]

theorem IsBlocked.andThen {x : Evaluation α} (h : x.IsBlocked) (instead : β)
    (f : α → Evaluation β) : (x.andThen instead f).IsBlocked := by
  obtain ⟨ps, rfl⟩ := h
  exact ⟨ps, rfl⟩

theorem IsBlocked.both_left {x : Evaluation α} (h : x.IsBlocked) (y : Evaluation β) :
    (x.both y).IsBlocked := by
  obtain ⟨ps, rfl⟩ := h
  cases y <;> exact ⟨_, rfl⟩

theorem IsBlocked.both_right {y : Evaluation β} (h : y.IsBlocked) (x : Evaluation α) :
    (x.both y).IsBlocked := by
  obtain ⟨qs, rfl⟩ := h
  cases x <;> exact ⟨_, rfl⟩

/-- Two computations wait together for what each of them waits for. -/
theorem both_eq_blocked {x : Evaluation α} {y : Evaluation β} {waiting : List Prerequisite}
    (h : x.both y = blocked waiting) :
    (∃ ps, x = blocked ps ∧ ∀ p ∈ ps, p ∈ waiting) ∨
      ∃ qs, y = blocked qs ∧ ∀ q ∈ qs, q ∈ waiting := by
  cases x with
  | blocked ps =>
    refine .inl ⟨ps, rfl, fun p hp => ?_⟩
    cases y <;> cases h
    · exact hp
    · exact mem_union.mpr (.inl hp)
    · exact hp
  | resolved a | fallback a fault =>
    cases y <;> cases h
    exact .inr ⟨_, rfl, fun _ => id⟩

theorem mem_both_blocked {x : Evaluation α} {y : Evaluation β} {waiting : List Prerequisite}
    (h : x.both y = blocked waiting) {p : Prerequisite} (hp : p ∈ waiting) :
    (∃ ps, x = blocked ps ∧ p ∈ ps) ∨ ∃ qs, y = blocked qs ∧ p ∈ qs := by
  cases x with
  | blocked ps =>
    cases y <;> cases h
    · exact .inl ⟨_, rfl, hp⟩
    · exact (mem_union.mp hp).imp (fun h => ⟨_, rfl, h⟩) fun h => ⟨_, rfl, h⟩
    · exact .inl ⟨_, rfl, hp⟩
  | resolved a | fallback a fault =>
    cases y <;> cases h
    exact .inr ⟨_, rfl, hp⟩

/-- Whether a computation with a result has a related result later, unless it has to wait then. -/
def Later (R : α → α → Prop) (x y : Evaluation α) : Prop :=
  ∀ a, x = resolved a → y.IsBlocked ∨ ∃ b, y = resolved b ∧ R a b

theorem Later.map {R : α → α → Prop} {S : β → β → Prop} {f : α → β} {x y : Evaluation α}
    (h : Later R x y) (hf : ∀ a b, R a b → S (f a) (f b)) : Later S (x.map f) (y.map f) := by
  intro b hb
  obtain ⟨a, ha, rfl⟩ := map_eq_resolved.mp hb
  rcases h a ha with hblocked | ⟨c, rfl, hc⟩
  · exact .inl (isBlocked_map.mpr hblocked)
  · exact .inr ⟨f c, rfl, hf a c hc⟩

theorem Later.both {R : α → α → Prop} {S : β → β → Prop} {x y : Evaluation α}
    {x' y' : Evaluation β} (h : Later R x y) (h' : Later S x' y') :
    Later (fun v w => R v.1 w.1 ∧ S v.2 w.2) (x.both x') (y.both y') := by
  intro v hv
  obtain ⟨hx, hx'⟩ := both_eq_resolved.mp hv
  rcases h _ hx with hblocked | ⟨b, rfl, hb⟩
  · exact .inl (hblocked.both_left y')
  rcases h' _ hx' with hblocked | ⟨b', rfl, hb'⟩
  · exact .inl (hblocked.both_right _)
  · exact .inr ⟨(b, b'), rfl, hb, hb'⟩

theorem Later.andThen {R : α → α → Prop} {S : β → β → Prop} {instead : β}
    {f g : α → Evaluation β} {x y : Evaluation α} (h : Later R x y)
    (hf : ∀ a b, R a b → Later S (f a) (g b)) :
    Later S (x.andThen instead f) (y.andThen instead g) := by
  intro b hb
  obtain ⟨a, ha, hfa⟩ := andThen_eq_resolved.mp hb
  rcases h a ha with ⟨waiting, rfl⟩ | ⟨c, rfl, hc⟩
  · exact .inl ⟨waiting, rfl⟩
  · exact hf a c hc b hfa

end Evaluation

/-! ## 2. Values of the same shape -/

namespace Value

/-- Whether two values differ in numbers of bytes only. -/
def SameShape : Value → Value → Prop
  | absolute _, absolute _ => True
  | relocatable a, relocatable b => a.bases = b.bases ∧ a.spaces = b.spaces
  | _, _ => False

theorem SameShape.refl (v : Value) : v.SameShape v := by
  cases v
  · trivial
  · exact ⟨rfl, rfl⟩

theorem SameShape.toAddress {v w : Value} (h : v.SameShape w) :
    v.toAddress.bases = w.toAddress.bases ∧ v.toAddress.spaces = w.toAddress.spaces := by
  cases v <;> cases w
  · exact ⟨rfl, rfl⟩
  · exact h.elim
  · exact h.elim
  · exact h

theorem SameShape.neg {v w : Value} (h : v.SameShape w) : (-v).SameShape (-w) := by
  cases v <;> cases w
  · trivial
  · exact h.elim
  · exact h.elim
  · exact ⟨congrArg (Terms.addScaled [] · (-1)) h.1, congrArg (Terms.addScaled [] · (-1)) h.2⟩

theorem sameShape_addScaled {a a' b b' : Address} (sign : Int32)
    (ha : a.bases = a'.bases ∧ a.spaces = a'.spaces)
    (hb : b.bases = b'.bases ∧ b.spaces = b'.spaces) :
    (a.addScaled b sign).bases = (a'.addScaled b' sign).bases ∧
      (a.addScaled b sign).spaces = (a'.addScaled b' sign).spaces := by
  simp only [Address.addScaled, ha.1, ha.2, hb.1, hb.2, and_self]

theorem SameShape.add {v v' w w' : Value} (h : v.SameShape v') (h' : w.SameShape w') :
    (v + w).SameShape (v' + w') := by
  have hs := sameShape_addScaled 1 h.toAddress h'.toAddress
  cases v <;> cases v' <;> first | exact h.elim | skip
  all_goals cases w <;> cases w' <;> first | exact h'.elim | exact hs | trivial

theorem SameShape.sub {v v' w w' : Value} (h : v.SameShape v') (h' : w.SameShape w') :
    (v - w).SameShape (v' - w') := by
  have hs := sameShape_addScaled (-1) h.toAddress h'.toAddress
  cases v <;> cases v' <;> first | exact h.elim | skip
  all_goals cases w <;> cases w' <;> first | exact h'.elim | exact hs | trivial

variable {a b : Spaces}

theorem settle_relocatable (x : Address) : (relocatable x).settle a =
    if (x.normalize a).isAbsolute ∧ (x.normalize a).spaces.isEmpty then
      .resolved (.absolute (x.normalize a).offset)
    else (x.normalize a).settled := by
  simp only [settle, simplify]
  split
  · rename_i n h
    split at h
    · cases h; rw [if_pos ‹_›]
    · cases h
  · rename_i y h
    split at h
    · cases h
    · cases h; rw [if_neg ‹_›]

/-- A value waits for the open spaces of an address without sections. -/
theorem settle_eq_blocked {v : Value} {waiting : List Prerequisite}
    (h : v.settle a = .blocked waiting) : ∃ x, v = relocatable x ∧ x.isAbsolute ∧
      ¬ (x.normalize a).spaces.isEmpty ∧
        waiting = ((x.normalize a).spaces.map (·.1)).map .space := by
  cases v with
  | absolute n => cases h
  | relocatable x =>
    rw [settle_relocatable] at h
    split at h
    · cases h
    · rename_i hno
      unfold Address.settled at h
      split at h
      · rename_i habs
        cases h
        exact ⟨x, rfl, habs, fun he => hno ⟨habs, he⟩, rfl⟩
      · cases h

theorem settle_eq_resolved {v u : Value} (h : v.settle a = .resolved u) :
    (∃ n, v = absolute n ∧ u = absolute n) ∨
      ∃ x, v = relocatable x ∧ (x.isAbsolute → (x.normalize a).spaces.isEmpty) ∧
        u = if x.isAbsolute then absolute (x.normalize a).offset
          else relocatable (x.normalize a) := by
  cases v with
  | absolute n => cases h; exact .inl ⟨n, rfl, rfl⟩
  | relocatable x =>
    simp only [settle_relocatable, Address.settled, Address.isAbsolute_normalize] at h
    refine .inr ⟨x, rfl, ?_⟩
    by_cases habs : x.isAbsolute
    · by_cases hempty : (x.normalize a).spaces.isEmpty
      · rw [if_pos ⟨habs, hempty⟩] at h
        cases h
        exact ⟨fun _ => hempty, by rw [if_pos habs]⟩
      · rw [if_neg fun hand => hempty hand.2, if_pos habs] at h
        cases h
    · rw [if_neg fun hand => habs hand.1, if_neg habs] at h
      cases h
      exact ⟨fun habs' => absurd habs' habs, by rw [if_neg habs]⟩

end Value

end Assembler
