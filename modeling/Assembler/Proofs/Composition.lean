import Assembler.Proofs.Expansion
/-!
Addresses put together from others.

Section starts, numbers and multiples of spaces are added, subtracted and negated, and lengths are put in on the way
as far as they are known at the time (`Address.Composed`). Whatever cancels is gone: no section and no space is
listed twice in such an address, and none with the coefficient zero (`Address.Composed.reduced`). Putting lengths in
twice changes nothing, and it makes no difference whether that happens before addresses are added or subtracted,
or early in a program besides late (`Address.normalize_commutes`).
-/

namespace Assembler

namespace Address

variable {a b : Spaces}

/-! ## 1. Sections and spaces listed once -/

/-- Each section and each space once, and none with the coefficient zero. -/
structure Reduced (x : Address) : Prop where
  bases : x.bases.Reduced
  spaces : x.spaces.Reduced

theorem Reduced.addScaled {x : Address} (hx : x.Reduced) (y : Address) (k : Int32) :
    (x.addScaled y k).Reduced :=
  ⟨hx.bases.addScaled _ _, hx.spaces.addScaled _ _⟩

/-- Substitution leaves a combination without zeros and repetitions, whatever the lengths are. -/
theorem Reduced.normalize {x : Address} (hx : x.Reduced) (a : Spaces) : (x.normalize a).Reduced :=
  ⟨hx.bases, (a.canonical_substitute _).reduced⟩

/-- Addresses put together from section starts, numbers and multiples of spaces. -/
inductive Composed : Address → Prop
  | start (s : SectionId) : Composed (.start s)
  | absolute (n : Int32) : Composed (.absolute n)
  | addOffset {x : Address} (hx : Composed x) (n : Int32) : Composed (x.addOffset n)
  | addSpace {x : Address} (hx : Composed x) (s : SpaceId) (k : Int32) : Composed (x.addSpace s k)
  | add {x y : Address} (hx : Composed x) (hy : Composed y) : Composed (x + y)
  | sub {x y : Address} (hx : Composed x) (hy : Composed y) : Composed (x - y)
  | neg {x : Address} (hx : Composed x) : Composed (-x)
  /-- The lengths known at some time are put in. -/
  | normalize {x : Address} (hx : Composed x) (a : Spaces) : Composed (x.normalize a)

theorem Composed.reduced {x : Address} (hx : x.Composed) : x.Reduced := by
  induction hx with
  | start s => exact ⟨Terms.Reduced.nil.cons (by decide) List.not_mem_nil, .nil⟩
  | absolute n => exact ⟨.nil, .nil⟩
  | addOffset _ n ih => exact ⟨ih.bases, ih.spaces⟩
  | addSpace _ s k ih => exact ⟨ih.bases, ih.spaces.add⟩
  | add _ _ ih _ => exact ih.addScaled _ _
  | sub _ _ ih _ => exact ih.addScaled _ _
  -- The negative of an address is added to zero, so nothing is asked of the address itself.
  | neg _ _ => exact Reduced.addScaled ⟨.nil, .nil⟩ _ _
  | normalize _ a ih => exact ih.normalize a

/-! ## 2. Lengths put in before and after -/

/-- Lengths may be put in on both sides before a multiple is added. -/
theorem normalize_addScaled (hab : a.Earlier b) (hb : b.Acyclic) (x y : Address) (k : Int32) :
    ((x.normalize a).addScaled (y.normalize a) k).normalize b = (x.addScaled y k).normalize b := by
  rw [normalize_addScaled_normalize hab hb]
  -- Normal forms are equal if they have the same bytes under every placement that fits.
  refine (normal_normalize hb _).eq_of_bytes hb (normal_normalize hb _) rfl fun τ hτ => ?_
  rw [bytes_normalize hτ, bytes_normalize hτ, bytes_addScaled, bytes_addScaled,
    bytes_normalize (hab.fits hτ)]

/-- Addresses that are put together list no section and no space twice or with the coefficient zero. Putting
lengths in can be repeated, can be done before an addition or a subtraction besides after it, and can be done early
besides late. -/
theorem normalize_commutes (ha : ∀ s, ¬ Relation.TransGen a.Mentions s s) {x : Address} (hx : x.Composed)
    (y : Address) :
    (x.Reduced ∧ (x.normalize a).Reduced) ∧
    (x.normalize a).normalize a = x.normalize a ∧
    (∀ b, a.Earlier b → (∀ s, ¬ Relation.TransGen b.Mentions s s) →
      (x.normalize a).normalize b = x.normalize b) ∧
    (x.normalize a + y.normalize a).normalize a = (x + y).normalize a ∧
    (x.normalize a - y.normalize a).normalize a = (x - y).normalize a := by
  have hacyclic := Spaces.acyclic_iff.mpr ha
  refine ⟨⟨hx.reduced, hx.reduced.normalize a⟩, ?_, fun b hab hb => ?_, ?_, ?_⟩
  · exact normalize_normalize (.refl a) hacyclic x
  · exact normalize_normalize hab (Spaces.acyclic_iff.mpr hb) x
  · exact normalize_addScaled (.refl a) hacyclic x y 1
  · exact normalize_addScaled (.refl a) hacyclic x y (-1)

/-! ### A length known in part -/

/-- Two spaces without a length. -/
def bothOpen : Spaces := (Spaces.create (Spaces.create {} .storage ⟨0⟩ .any).2 .storage ⟨0⟩ .any).2

/-- The same spaces when the first is known to be eight bytes longer than the second. -/
def halfKnown : Spaces :=
  ⟨#[⟨.storage, ⟨0⟩, .any, some ⟨8, [(⟨1⟩, 1)]⟩⟩, ⟨.storage, ⟨0⟩, .any, none⟩]⟩

theorem resolve?_bothOpen : bothOpen.resolve? ⟨0⟩ ⟨8, [(⟨1⟩, 1)]⟩ = some halfKnown := rfl

theorem acyclic_halfKnown : halfKnown.Acyclic :=
  ((Spaces.acyclic_empty.create .storage ⟨0⟩ .any).create .storage ⟨0⟩ .any).resolve? (by decide) resolve?_bothOpen

theorem fits_halfKnown {τ : SpaceId → Int32} (h : τ ⟨0⟩ = 8 + τ ⟨1⟩) : halfKnown.Fits τ := by
  intro s length hlength
  rw [Spaces.length?_of_resolve? resolve?_bothOpen] at hlength
  split at hlength
  · rename_i hs
    cases hlength
    rw [hs, h, Terms.value, Terms.value, Int32.one_mul, Int32.add_zero]
  · rw [bothOpen, Spaces.length?_create, Spaces.length?_create] at hlength
    cases hlength

/-- The same spaces when the second is known to have four bytes. -/
def fullyKnown : Spaces :=
  ⟨#[⟨.storage, ⟨0⟩, .any, some ⟨8, [(⟨1⟩, 1)]⟩⟩, ⟨.storage, ⟨0⟩, .any, some ⟨4, []⟩⟩]⟩

theorem resolve?_halfKnown : halfKnown.resolve? ⟨1⟩ ⟨4, []⟩ = some fullyKnown := rfl

/-- Two addresses behind the first space, one of them behind the second space too. Their difference is known
although neither is. -/
theorem normalize_commutes_halfKnown :
    let x := (start ⟨0⟩).addSpace ⟨0⟩ 1
    let y := ((start ⟨0⟩).addSpace ⟨1⟩ 1).addOffset 2
    (x - y).normalize halfKnown = absolute 6 ∧
    (x.normalize halfKnown - y.normalize halfKnown).normalize halfKnown = absolute 6 ∧
    (x.normalize halfKnown).normalize fullyKnown = (start ⟨0⟩).addOffset 12 := by
  have hfully : fullyKnown.Acyclic := acyclic_halfKnown.resolve? (by simp) resolve?_halfKnown
  obtain ⟨-, -, hlater, -, hsub⟩ := normalize_commutes acyclic_halfKnown.not_mentions
    ((Composed.start ⟨0⟩).addSpace ⟨0⟩ 1) (((start ⟨0⟩).addSpace ⟨1⟩ 1).addOffset 2)
  refine ⟨by decide, hsub.trans (by decide), ?_⟩
  exact (hlater _ (Spaces.earlier_of_resolve? resolve?_halfKnown) hfully.not_mentions).trans (by decide)

end Address

end Assembler
