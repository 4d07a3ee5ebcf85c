import Assembler.Layout.Address
/-!
Normal forms of addresses.

A length is in terms of spaces that get their own lengths later, if at all, so the lengths can be ranked
(`Spaces.Acyclic`) and substitution leaves open spaces only (`not_isResolved_of_mem_substitute`). The
spaces that are left stand in the order of their numbers, each once and with a coefficient that is not
zero. Such a combination is determined by its values (`Spaces.eq_of_value`), so it does not
matter when the lengths that are known are put in (`Address.normalize_normalize`).
-/

namespace Assembler

/-! ## 1. Combinations without zeros and repetitions -/

namespace Terms

variable {κ : Type}

/-- Each key once, and no coefficient that is zero. -/
structure Reduced (ts : Terms κ) : Prop where
  distinct : (ts.map Prod.fst).Nodup
  nonzero : ∀ t ∈ ts, t.2 ≠ 0

theorem Reduced.nil : Reduced ([] : Terms κ) := ⟨List.nodup_nil, fun _ h => nomatch h⟩

theorem Reduced.tail {t : κ × Int32} {ts : Terms κ} (h : Reduced (t :: ts)) : Reduced ts where
  distinct := (List.nodup_cons.mp h.distinct).2
  nonzero u hu := h.nonzero u (List.mem_cons_of_mem _ hu)

theorem Reduced.cons {key : κ} {k : Int32} {ts : Terms κ} (h : Reduced ts) (hk : k ≠ 0)
    (hnot : key ∉ ts.map Prod.fst) : Reduced ((key, k) :: ts) where
  distinct := List.nodup_cons.mpr ⟨hnot, h.distinct⟩
  nonzero u hu := by
    rcases List.mem_cons.mp hu with rfl | hu
    · exact hk
    · exact h.nonzero u hu

theorem value_congr {τ υ : κ → Int32} {ts : Terms κ}
    (h : ∀ s ∈ ts.map Prod.fst, τ s = υ s) : ts.value τ = ts.value υ := by
  induction ts with
  | nil => rfl
  | cons t rest ih =>
    rw [value, value, h t.1 (by simp), ih fun s hs => h s (List.mem_cons_of_mem _ hs)]

theorem value_zero (ts : Terms κ) : ts.value (fun _ => 0) = 0 := by
  induction ts with
  | nil => rfl
  | cons t rest ih => rw [value, ih]; simp

variable [DecidableEq κ]

theorem mem_keys_insert {before : κ → κ → Bool} {key s : κ} {k : Int32} {ts : Terms κ}
    (h : s ∈ (insert before key k ts).map Prod.fst) : s = key ∨ s ∈ ts.map Prod.fst := by
  induction ts with
  | nil =>
    unfold insert at h
    split at h
    · cases h
    · exact .inl (by simpa using h)
  | cons t rest ih =>
    obtain ⟨other, c⟩ := t
    unfold insert at h
    split at h
    · exact .inr h
    split at h
    · split at h
      · exact .inr (List.mem_cons_of_mem _ h)
      · exact .inr h
    split at h
    · rcases List.mem_cons.mp h with rfl | h
      · exact .inl rfl
      · exact .inr h
    · rcases List.mem_cons.mp h with rfl | h
      · exact .inr List.mem_cons_self
      · exact (ih h).imp id (List.mem_cons_of_mem _)

theorem Reduced.add {key : κ} {k : Int32} {ts : Terms κ} (h : Reduced ts) : Reduced (ts.add key k) := by
  unfold Terms.add
  induction ts with
  | nil =>
    unfold insert
    split
    · exact h
    · exact h.cons ‹_› List.not_mem_nil
  | cons t rest ih =>
    obtain ⟨other, c⟩ := t
    have hnot := (List.nodup_cons.mp h.distinct).1
    unfold insert
    split
    · exact h
    split
    · split
      · exact h.tail
      · exact h.tail.cons ‹_› hnot
    · rename_i hne
      rw [if_neg Bool.false_ne_true]
      refine (ih h.tail).cons (h.nonzero _ List.mem_cons_self) fun hmem => ?_
      exact (mem_keys_insert hmem).elim hne hnot

theorem Reduced.addScaled {ts : Terms κ} (h : Reduced ts) (us : Terms κ) (sign : Int32) :
    Reduced (ts.addScaled us sign) := by
  induction us generalizing ts with
  | nil => exact h
  | cons u rest ih => exact ih h.add

/-- A combination that is zero whatever its keys stand for has no keys. -/
theorem Reduced.eq_nil {ts : Terms κ} (h : Reduced ts) (hzero : ∀ ρ, ts.value ρ = 0) : ts = [] := by
  cases ts with
  | nil => rfl
  | cons t rest =>
    obtain ⟨key, k⟩ := t
    have hnot : key ∉ rest.map Prod.fst := (List.nodup_cons.mp h.distinct).1
    -- The assignment that tells the first key apart from all others.
    have hfirst := hzero fun other => if other = key then 1 else 0
    have hrest : value (fun other => if other = key then 1 else 0) rest = 0 := by
      refine Eq.trans (value_congr fun other hother => if_neg fun he => ?_) (value_zero rest)
      rw [he] at hother
      exact hnot hother
    rw [value, hrest, if_pos rfl, Int32.mul_one, Int32.add_zero] at hfirst
    exact absurd hfirst (h.nonzero _ List.mem_cons_self)

/-! ### Combinations of spaces -/

/-- Spaces in the order of their numbers, each once, and no coefficient that is zero. -/
def Canonical (ts : Terms SpaceId) : Prop :=
  ts.Pairwise (fun t u => t.1.index < u.1.index) ∧ ∀ t ∈ ts, t.2 ≠ 0

theorem Canonical.nil : Canonical [] := ⟨List.Pairwise.nil, fun _ h => nomatch h⟩

theorem Canonical.reduced {ts : Terms SpaceId} (h : Canonical ts) : Reduced ts where
  distinct := List.pairwise_map.mpr (h.1.imp fun hlt he => Nat.ne_of_lt hlt (congrArg SpaceId.index he))
  nonzero := h.2

theorem Canonical.tail {t : SpaceId × Int32} {ts : Terms SpaceId} (h : Canonical (t :: ts)) :
    Canonical ts :=
  ⟨(List.pairwise_cons.mp h.1).2, fun u hu => h.2 u (List.mem_cons_of_mem _ hu)⟩

/-- Terms put together one by one have no keys but those put in. -/
theorem mem_keys_foldr {α : Type} {f : SpaceId × α → Terms SpaceId → Terms SpaceId} {s : SpaceId}
    (hf : ∀ u rest, s ∈ (f u rest).map Prod.fst → s = u.1 ∨ s ∈ rest.map Prod.fst)
    {us : List (SpaceId × α)} (h : s ∈ (us.foldr f []).map Prod.fst) : s ∈ us.map Prod.fst := by
  induction us with
  | nil => exact h
  | cons u us ih =>
    rcases hf u _ h with rfl | h
    · exact List.mem_cons_self
    · exact List.mem_cons_of_mem _ (ih h)

theorem Canonical.insert {key : SpaceId} {k : Int32} {ts : Terms SpaceId} (h : Canonical ts) :
    Canonical (insert SpaceId.precedes key k ts) := by
  induction ts with
  | nil =>
    unfold Terms.insert
    split
    · exact .nil
    · exact ⟨List.pairwise_singleton _ _, by simpa using ‹_›⟩
  | cons t rest ih =>
    obtain ⟨other, c⟩ := t
    have hlt := (List.pairwise_cons.mp h.1).1
    unfold Terms.insert
    split
    · exact h
    split
    · split
      · exact h.tail
      · refine ⟨List.pairwise_cons.mpr ⟨hlt, h.tail.1⟩, fun u hu => ?_⟩
        rcases List.mem_cons.mp hu with rfl | hu
        · assumption
        · exact h.tail.2 u hu
    split
    · -- The key comes first.
      rename_i hk _ hb
      have hb : key.index < other.index := by simpa [SpaceId.precedes] using hb
      refine ⟨List.pairwise_cons.mpr ⟨fun u hu => ?_, h.1⟩, fun u hu => ?_⟩
      · rcases List.mem_cons.mp hu with rfl | hu
        · exact hb
        · exact Nat.lt_trans hb (hlt u hu)
      · rcases List.mem_cons.mp hu with rfl | hu
        · exact hk
        · exact h.2 u hu
    · -- The key comes behind the first one, so it is put into the rest.
      rename_i hne hb
      have hle : other.index < key.index := by
        have h1 : ¬ key.index < other.index := by simpa [SpaceId.precedes] using hb
        have h2 : other.index ≠ key.index := fun he => hne (by cases other; cases key; simp_all)
        omega
      refine ⟨List.pairwise_cons.mpr ⟨fun u hu => ?_, (ih h.tail).1⟩, fun u hu => ?_⟩
      · rcases mem_keys_insert (List.mem_map_of_mem hu) with he | hu
        · rw [he]; exact hle
        · obtain ⟨v, hv, hvu⟩ := List.mem_map.mp hu
          rw [← hvu]; exact hlt v hv
      · rcases List.mem_cons.mp hu with rfl | hu
        · exact h.2 _ List.mem_cons_self
        · exact (ih h.tail).2 u hu

theorem canonical_foldr {α : Type} {f : SpaceId × α → Terms SpaceId → Terms SpaceId}
    (hf : ∀ u rest, Canonical rest → Canonical (f u rest)) (us : List (SpaceId × α)) :
    Canonical (us.foldr f []) := by
  induction us with
  | nil => exact .nil
  | cons u us ih => exact hf u _ ih

/-- The assignment that tells one space apart from all others. -/
def unit (s : SpaceId) : SpaceId → Int32 := fun t => if t = s then 1 else 0

theorem value_unit_of_not_mem {s : SpaceId} {ts : Terms SpaceId} (h : s ∉ ts.map Prod.fst) :
    ts.value (unit s) = 0 := by
  rw [← value_zero ts]
  refine value_congr fun t ht => ?_
  exact if_neg fun he : t = s => h (he ▸ ht)

theorem value_unit_head (s : SpaceId) (k : Int32) {ts : Terms SpaceId}
    (h : s ∉ ts.map Prod.fst) : value (unit s) ((s, k) :: ts) = k := by
  rw [value, value_unit_of_not_mem h]
  simp [unit]

theorem Canonical.head_not_mem {s : SpaceId} {k : Int32} {ts : Terms SpaceId}
    (h : Canonical ((s, k) :: ts)) : s ∉ ts.map Prod.fst := by
  intro hs
  obtain ⟨t, ht, he⟩ := List.mem_map.mp hs
  have := (List.pairwise_cons.mp h.1).1 t ht
  rw [he] at this
  exact Nat.lt_irrefl _ this

/-- A space with a number below the first one does not occur. -/
theorem Canonical.not_mem_of_lt {s r : SpaceId} {k : Int32} {ts : Terms SpaceId}
    (h : Canonical ((s, k) :: ts)) (hr : r.index < s.index) :
    r ∉ (List.map Prod.fst ((s, k) :: ts)) := by
  intro hm
  rcases List.mem_cons.mp hm with rfl | hm
  · exact Nat.lt_irrefl _ hr
  · obtain ⟨t, ht, rfl⟩ := List.mem_map.mp hm
    exact Nat.lt_asymm hr ((List.pairwise_cons.mp h.1).1 t ht)

/-- Canonical combinations with the same coefficient at every space are the same. -/
theorem Canonical.eq_of_unit {ts us : Terms SpaceId} (ht : Canonical ts) (hu : Canonical us)
    (h : ∀ s, ts.value (unit s) = us.value (unit s)) : ts = us := by
  induction ts generalizing us with
  | nil =>
    cases us with
    | nil => rfl
    | cons u us =>
      have h0 := h u.1
      rw [value_unit_head u.1 u.2 hu.head_not_mem] at h0
      exact absurd h0.symm (hu.2 u List.mem_cons_self)
  | cons t ts ih =>
    obtain ⟨s, k⟩ := t
    cases us with
    | nil =>
      have h0 := h s
      rw [value_unit_head s k ht.head_not_mem] at h0
      exact absurd h0 (ht.2 _ List.mem_cons_self)
    | cons u us =>
      obtain ⟨r, l⟩ := u
      -- If one of them started with an earlier space, the other would have no coefficient there.
      rcases Nat.lt_trichotomy s.index r.index with hlt | heq | hgt
      · have h0 := h s
        rw [value_unit_head s k ht.head_not_mem, value_unit_of_not_mem (hu.not_mem_of_lt hlt)] at h0
        exact absurd h0 (ht.2 _ List.mem_cons_self)
      · have hsr : s = r := by cases s; cases r; simp_all
        subst hsr
        have hk := h s
        rw [value_unit_head s k ht.head_not_mem, value_unit_head s l hu.head_not_mem] at hk
        subst hk
        rw [ih ht.tail hu.tail fun x => ?_]
        have hx := h x
        rw [value, value] at hx
        exact (Int32.add_right_inj _).mp hx
      · have h0 := h r
        rw [value_unit_head r l hu.head_not_mem, value_unit_of_not_mem (ht.not_mem_of_lt hgt)] at h0
        exact absurd h0.symm (hu.2 _ List.mem_cons_self)

end Terms

/-! ## 2. Lengths in terms of other spaces -/

namespace Spaces

/-- Whether `rank` falls from each space with a length to the spaces with a length that its own length is
in terms of, and leaves room for a rank for each space without one. -/
structure Ranked (a : Spaces) (rank : SpaceId → Nat) : Prop where
  lt : ∀ {s length}, a.length? s = some length → ∀ t ∈ length.spaces.map Prod.fst,
    a.isResolved t → rank t < rank s
  bounded : ∀ {s}, a.isResolved s → rank s + a.unresolved.length < a.size

/-- No length is in terms of its own space in the end. -/
def Acyclic (a : Spaces) : Prop := ∃ rank, a.Ranked rank

theorem isResolved_iff {a : Spaces} {s : SpaceId} :
    a.isResolved s ↔ ∃ length, a.length? s = some length := by
  rw [isResolved, Option.isSome_iff_exists]

theorem length?_eq_none {a : Spaces} {s : SpaceId} (h : ¬ a.isResolved s) : a.length? s = none := by
  simpa [isResolved] using h

theorem not_isResolved {a : Spaces} {s : SpaceId} (h : a.length? s = none) : ¬ a.isResolved s := by
  simp [isResolved, h]

end Spaces

namespace Extent

theorem mem_keys_addTo {s t : SpaceId} {k : Int} {ts : List (SpaceId × Int)}
    (h : t ∈ (addTo s k ts).map Prod.fst) : t = s ∨ t ∈ ts.map Prod.fst := by
  induction ts with
  | nil =>
    unfold addTo at h
    split at h
    · cases h
    · exact .inl (by simpa using h)
  | cons u rest ih =>
    obtain ⟨other, c⟩ := u
    unfold addTo at h
    split at h
    · exact .inr h
    split at h
    · split at h
      · exact .inr (List.mem_cons_of_mem _ h)
      · exact .inr h
    split at h
    · rcases List.mem_cons.mp h with rfl | h
      · exact .inl rfl
      · exact .inr h
    · rcases List.mem_cons.mp h with rfl | h
      · exact .inr List.mem_cons_self
      · exact (ih h).imp id (List.mem_cons_of_mem _)

theorem mem_keys_foldr_add {t : SpaceId} {k : Int} {ts : Terms SpaceId} {e : Extent}
    (h : t ∈ (ts.foldr (fun (s, c) e => e.add s (k * c.toInt)) e).spaces.map Prod.fst) :
    t ∈ ts.map Prod.fst ∨ t ∈ e.spaces.map Prod.fst := by
  induction ts with
  | nil => exact .inr h
  | cons u rest ih =>
    rw [List.foldr_cons] at h
    rcases mem_keys_addTo h with rfl | h
    · exact .inl List.mem_cons_self
    · exact (ih h).imp (List.mem_cons_of_mem _) id

end Extent

namespace Spaces

/-- What is left of a space after its length has been put in. -/
theorem mem_keys_expandTerm {a : Spaces} {e : Extent} {s t : SpaceId} {k : Int}
    (h : t ∈ (a.expandTerm e s k).spaces.map Prod.fst) :
    t ∈ e.spaces.map Prod.fst ∨ (t = s ∧ ¬ a.isResolved s) ∨
      ∃ length, a.length? s = some length ∧ t ∈ length.spaces.map Prod.fst := by
  unfold expandTerm at h
  split at h
  · rename_i hs
    rcases Extent.mem_keys_addTo h with rfl | h
    · exact .inr (.inl ⟨rfl, not_isResolved hs⟩)
    · exact .inl h
  · rename_i length hs
    rcases Extent.mem_keys_foldr_add h with h | h
    · exact .inr (.inr ⟨length, hs, h⟩)
    · exact .inl h

theorem mem_keys_expand {a : Spaces} {e : Extent} {t : SpaceId}
    (h : t ∈ (a.expand e).spaces.map Prod.fst) :
    (t ∈ e.spaces.map Prod.fst ∧ ¬ a.isResolved t) ∨ ∃ s length, s ∈ e.spaces.map Prod.fst ∧
      a.length? s = some length ∧ t ∈ length.spaces.map Prod.fst := by
  have fold : ∀ ts : List (SpaceId × Int),
      t ∈ (ts.foldr (fun (s, k) e => a.expandTerm e s k) { bytes := e.bytes }).spaces.map
          Prod.fst →
        (t ∈ ts.map Prod.fst ∧ ¬ a.isResolved t) ∨ ∃ s length, s ∈ ts.map Prod.fst ∧
          a.length? s = some length ∧ t ∈ length.spaces.map Prod.fst := by
    intro ts
    induction ts with
    | nil => intro h; cases h
    | cons u rest ih =>
      intro h
      rw [List.foldr_cons] at h
      rcases mem_keys_expandTerm h with h | ⟨rfl, hs⟩ | ⟨length, hs, ht⟩
      · rcases ih h with ⟨h, ho⟩ | ⟨s, length, hm, hs, ht⟩
        · exact .inl ⟨List.mem_cons_of_mem _ h, ho⟩
        · exact .inr ⟨s, length, List.mem_cons_of_mem _ hm, hs, ht⟩
      · exact .inl ⟨List.mem_cons_self, hs⟩
      · exact .inr ⟨u.1, length, List.mem_cons_self, hs, ht⟩
  exact fold e.spaces h

/-- Putting lengths in as often as the highest rank says leaves open spaces only. -/
theorem not_isResolved_expandAll {a : Spaces} {rank : SpaceId → Nat} (hr : a.Ranked rank)
    (times : Nat) (e : Extent)
    (h : ∀ s ∈ e.spaces.map Prod.fst, a.isResolved s → rank s < times) :
    ∀ t ∈ (a.expandAll times e).spaces.map Prod.fst, ¬ a.isResolved t := by
  induction times generalizing e with
  | zero => exact fun t ht hs => absurd (h t ht hs) (Nat.not_lt_zero _)
  | succ times ih =>
    unfold expandAll
    split
    · refine ih _ fun t ht hs => ?_
      rcases mem_keys_expand ht with ⟨-, ho⟩ | ⟨s, length, hm, hl, ht⟩
      · exact absurd hs ho
      · have h1 := hr.lt hl t ht hs
        have h2 := h s hm (isResolved_iff.mpr ⟨length, hl⟩)
        omega
    · rename_i hany
      intro t ht hs
      obtain ⟨u, hu, rfl⟩ := List.mem_map.mp ht
      exact hany (List.any_eq_true.mpr ⟨u, hu, hs⟩)

theorem not_isResolved_of_mem_substitute {a : Spaces} (ha : a.Acyclic) {ts : Terms SpaceId}
    {t : SpaceId} (h : t ∈ (a.substitute ts).2.map Prod.fst) : ¬ a.isResolved t := by
  obtain ⟨rank, hr⟩ := ha
  have hkeys := Terms.mem_keys_foldr (fun _ _ => Terms.mem_keys_insert) h
  refine not_isResolved_expandAll hr a.size _ (fun s _ hs => ?_) t hkeys
  have := hr.bounded hs
  omega

theorem canonical_substitute (a : Spaces) (ts : Terms SpaceId) :
    (a.substitute ts).2.Canonical :=
  Terms.canonical_foldr (fun _ _ h => h.insert) _

/-! ### Assignments that agree with the lengths -/

/-- The numbers of all spaces, from those of the spaces without a length. -/
def extend (a : Spaces) (τ : SpaceId → Int32) : Nat → SpaceId → Int32
  | 0 => τ
  | times + 1 => fun s =>
    match a.length? s with
    | none => τ s
    | some length => length.bytes + length.spaces.value (a.extend τ times)

theorem extend_of_open {a : Spaces} {s : SpaceId} (h : ¬ a.isResolved s) (τ : SpaceId → Int32)
    (times : Nat) : a.extend τ times s = τ s := by
  cases times with
  | zero => rfl
  | succ times => simp only [extend, length?_eq_none h]

theorem extend_of_length? {a : Spaces} {s : SpaceId} {length : Length}
    (h : a.length? s = some length) (τ : SpaceId → Int32) (times : Nat) :
    a.extend τ (times + 1) s = length.bytes + length.spaces.value (a.extend τ times) := by
  simp only [extend, h]

theorem extend_succ {a : Spaces} {rank : SpaceId → Nat} (hr : a.Ranked rank)
    (τ : SpaceId → Int32) (times : Nat) (s : SpaceId) (h : a.isResolved s → rank s < times) :
    a.extend τ (times + 1) s = a.extend τ times s := by
  induction times generalizing s with
  | zero =>
    have hs : ¬ a.isResolved s := fun hs => Nat.not_lt_zero _ (h hs)
    rw [extend_of_open hs, extend_of_open hs]
  | succ times ih =>
    by_cases hs : a.isResolved s
    · obtain ⟨length, hl⟩ := isResolved_iff.mp hs
      have hcongr : length.spaces.value (a.extend τ (times + 1)) =
          length.spaces.value (a.extend τ times) := by
        refine Terms.value_congr fun t ht => ih t fun hres => ?_
        have h1 := hr.lt hl t ht hres
        have h2 := h hs
        omega
      rw [extend_of_length? hl, extend_of_length? hl, hcongr]
    · rw [extend_of_open hs, extend_of_open hs]

/-- Any numbers for the spaces without a length can be extended to all spaces. -/
theorem exists_fits {a : Spaces} (ha : a.Acyclic) (τ : SpaceId → Int32) :
    ∃ υ, a.Fits υ ∧ ∀ s, ¬ a.isResolved s → υ s = τ s := by
  obtain ⟨rank, hr⟩ := ha
  refine ⟨a.extend τ a.size, fun s length hl => ?_, fun s hs => extend_of_open hs τ _⟩
  have hs : a.isResolved s := isResolved_iff.mpr ⟨length, hl⟩
  have hb := hr.bounded hs
  rw [← extend_succ hr τ a.size s fun _ => by omega, extend_of_length? hl]

/-- What substitution leaves is determined by its values. -/
theorem eq_of_value {a : Spaces} (ha : a.Acyclic) {b c : Int32} {ts us : Terms SpaceId}
    (ht : ts.Canonical) (hu : us.Canonical) (hto : ∀ s ∈ ts.map Prod.fst, ¬ a.isResolved s)
    (huo : ∀ s ∈ us.map Prod.fst, ¬ a.isResolved s)
    (h : ∀ τ, a.Fits τ → b + ts.value τ = c + us.value τ) : b = c ∧ ts = us := by
  have all : ∀ τ, b + ts.value τ = c + us.value τ := by
    intro τ
    obtain ⟨υ, hυ, ho⟩ := exists_fits ha τ
    have heq := h υ hυ
    rw [Terms.value_congr fun s hs => ho s (hto s hs),
      Terms.value_congr fun s hs => ho s (huo s hs)] at heq
    exact heq
  have hbc : b = c := by simpa [Terms.value_zero] using all fun _ => 0
  subst hbc
  exact ⟨rfl, ht.eq_of_unit hu fun s => (Int32.add_right_inj _).mp (all _)⟩

end Spaces

/-! ## 3. Later states of the spaces -/

namespace Spaces

/-- Whether `b` comes from `a` by adding spaces and by giving lengths to spaces without one. -/
def Earlier (a b : Spaces) : Prop :=
  ∀ s space, a.get? s = some space → ∃ length?, b.get? s = some { space with length? } ∧
    ∀ length, space.length? = some length → length? = some length

theorem Earlier.refl (a : Spaces) : a.Earlier a :=
  fun _ space h => ⟨space.length?, h, fun _ => id⟩

theorem Earlier.trans {a b c : Spaces} (h : a.Earlier b) (h' : b.Earlier c) : a.Earlier c := by
  intro s space hs
  obtain ⟨mid, hmid, hlength⟩ := h s space hs
  obtain ⟨later, hlater, hlength'⟩ := h' s _ hmid
  exact ⟨later, hlater, fun l hl => hlength' l (hlength l hl)⟩

theorem Earlier.length? {a b : Spaces} (h : a.Earlier b) {s : SpaceId} {length : Length}
    (hs : a.length? s = some length) : b.length? s = some length := by
  obtain ⟨space, hg, hl⟩ := Option.bind_eq_some_iff.mp hs
  obtain ⟨later, hlater, hlength⟩ := h s space hg
  exact Option.bind_eq_some_iff.mpr ⟨_, hlater, hlength length hl⟩

theorem Earlier.isResolved {a b : Spaces} (h : a.Earlier b) {s : SpaceId}
    (hs : a.isResolved s) : b.isResolved s := by
  obtain ⟨length, hl⟩ := isResolved_iff.mp hs
  exact isResolved_iff.mpr ⟨length, h.length? hl⟩

theorem Earlier.fits {a b : Spaces} (h : a.Earlier b) {τ : SpaceId → Int32} (hb : b.Fits τ) :
    a.Fits τ := fun s length hl => hb s length (h.length? hl)

theorem get?_eq_none_iff {a : Spaces} {s : SpaceId} : a.get? s = none ↔ a.size ≤ s.index :=
  Array.getElem?_eq_none_iff

theorem lt_size_of_get? {a : Spaces} {s : SpaceId} {space : Space} (h : a.get? s = some space) :
    s.index < a.size := by
  refine Nat.lt_of_not_le fun hle => ?_
  rw [get?_eq_none_iff.mpr hle] at h
  cases h

theorem Earlier.size_le {a b : Spaces} (h : a.Earlier b) : a.size ≤ b.size := by
  cases ha : a.get? ⟨b.size⟩ with
  | none => exact get?_eq_none_iff.mp ha
  | some space =>
    obtain ⟨later, hlater, -⟩ := h _ _ ha
    exact absurd (lt_size_of_get? hlater) (Nat.lt_irrefl _)

/-- The reason for a space, if it exists. -/
def kind? (a : Spaces) (s : SpaceId) : Option SpaceKind := (a.get? s).map (·.kind)

theorem lt_size_of_kind? {a : Spaces} {s : SpaceId} {kind : SpaceKind} (h : a.kind? s = some kind) :
    s.index < a.size := by
  obtain ⟨space, hs, -⟩ := Option.map_eq_some_iff.mp h
  exact lt_size_of_get? hs

theorem Earlier.kind? {a b : Spaces} (h : a.Earlier b) {s : SpaceId} {kind : SpaceKind}
    (hs : a.kind? s = some kind) : b.kind? s = some kind := by
  obtain ⟨space, hg, rfl⟩ := Option.map_eq_some_iff.mp hs
  obtain ⟨later, hlater, -⟩ := h s space hg
  exact Option.map_eq_some_iff.mpr ⟨_, hlater, rfl⟩

theorem Earlier.kind?_eq {a b : Spaces} (h : a.Earlier b) {s : SpaceId} (hs : s.index < a.size) :
    b.kind? s = a.kind? s := by
  cases hk : a.kind? s with
  | none => exact absurd (get?_eq_none_iff.mp (Option.map_eq_none_iff.mp hk)) (Nat.not_le_of_lt hs)
  | some kind => exact h.kind? hk

/-! ### A further space -/

theorem get?_create (a : Spaces) (kind : SpaceKind) (counter : CounterId) (g : Alignment)
    (s : SpaceId) : (a.create kind counter g).2.get? s =
      if s.index = a.size then some ⟨kind, counter, g, none⟩ else a.get? s := by
  show (a.entries.push _)[s.index]? = _
  rw [Array.getElem?_push]
  rfl

theorem length?_create (a : Spaces) (kind : SpaceKind) (counter : CounterId) (g : Alignment)
    (s : SpaceId) : (a.create kind counter g).2.length? s = a.length? s := by
  rw [length?, get?_create]
  split
  · rename_i hs
    rw [length?, get?_eq_none_iff.mpr (by omega)]
    rfl
  · rfl

theorem isResolved_create (a : Spaces) (kind : SpaceKind) (counter : CounterId) (g : Alignment)
    (s : SpaceId) : (a.create kind counter g).2.isResolved s = a.isResolved s := by
  rw [isResolved, length?_create, isResolved]

theorem earlier_create (a : Spaces) (kind : SpaceKind) (counter : CounterId) (g : Alignment) :
    a.Earlier (a.create kind counter g).2 := by
  intro s space hs
  have hne : s.index ≠ a.size := by
    intro he
    rw [get?_eq_none_iff.mpr (by omega)] at hs
    cases hs
  exact ⟨space.length?, by rw [get?_create, if_neg hne, hs], fun _ => id⟩

theorem kind?_create (a : Spaces) (kind : SpaceKind) (counter : CounterId) (g : Alignment) :
    (a.create kind counter g).2.kind? ⟨a.size⟩ = some kind := by
  rw [kind?, get?_create, if_pos rfl]
  rfl

theorem size_create (a : Spaces) (kind : SpaceKind) (counter : CounterId) (g : Alignment) :
    (a.create kind counter g).2.size = a.size + 1 :=
  Array.size_push _

theorem Acyclic.create {a : Spaces} (ha : a.Acyclic) (kind : SpaceKind) (counter : CounterId)
    (g : Alignment) : (a.create kind counter g).2.Acyclic := by
  obtain ⟨rank, hr⟩ := ha
  refine ⟨rank, ⟨fun {s l} hl t ht hs => ?_, fun {s} hs => ?_⟩⟩
  · rw [length?_create] at hl
    rw [isResolved_create] at hs
    exact hr.lt hl t ht hs
  · rw [isResolved_create] at hs
    have hb := hr.bounded hs
    have hlen : (a.create kind counter g).2.unresolved.length ≤ a.unresolved.length + 1 := by
      simp only [unresolved, size_create, List.range_succ, List.map_append, List.filter_append,
        List.length_append, isResolved_create]
      exact Nat.add_le_add_left (List.length_filter_le _ _) _
    rw [size_create]
    omega

theorem acyclic_empty : Acyclic {} := by
  refine ⟨fun _ => 0, ⟨fun {s l} hl => ?_, fun {s} hs => ?_⟩⟩
  · cases hl
  · cases hs

/-! ### A further length -/

theorem resolve?_eq_some {a b : Spaces} {s : SpaceId} {length : Length}
    (h : a.resolve? s length = some b) : ∃ space, a.get? s = some space ∧
      ¬ a.isResolved s ∧ s ∉ length.spaces.map Prod.fst ∧
        b = ⟨a.entries.setIfInBounds s.index { space with length? := some length }⟩ := by
  unfold resolve? at h
  split at h
  · rename_i space hs
    split at h
    · cases h
    · rename_i hno
      rw [not_or] at hno
      refine ⟨space, hs, fun hr => hno.2 ?_, fun hm => hno.1 ?_, (Option.some.inj h).symm⟩
      · simpa [isResolved, length?, hs] using hr
      · obtain ⟨t, ht, he⟩ := List.mem_map.mp hm
        exact List.any_eq_true.mpr ⟨t, ht, decide_eq_true he⟩
  · cases h

/-- A length that is not in terms of its space may be given to the space while it is open. -/
theorem exists_resolve? {a : Spaces} {s : SpaceId} {length : Length} (hlt : s.index < a.size)
    (hno : ¬ a.isResolved s) (hself : s ∉ length.spaces.map Prod.fst) :
    ∃ b, a.resolve? s length = some b := by
  obtain ⟨space, hs⟩ := Option.ne_none_iff_exists'.mp fun hnone =>
    Nat.not_le_of_lt hlt (get?_eq_none_iff.mp hnone)
  have hany : ¬ length.spaces.any (·.1 = s) := by
    intro hany
    obtain ⟨t, ht, he⟩ := List.any_eq_true.mp hany
    exact hself (List.mem_map.mpr ⟨t, ht, of_decide_eq_true he⟩)
  have hopen : ¬ space.length?.isSome := by
    simpa [isResolved, length?, hs] using hno
  unfold resolve?
  rw [hs]
  exact ⟨_, if_neg (not_or.mpr ⟨hany, hopen⟩)⟩

theorem get?_of_resolve? {a b : Spaces} {s : SpaceId} {length : Length}
    (h : a.resolve? s length = some b) (t : SpaceId) :
    b.get? t = if t = s then (a.get? s).map ({ · with length? := some length }) else a.get? t := by
  obtain ⟨space, hs, -, -, rfl⟩ := resolve?_eq_some h
  have hlt : s.index < a.entries.size := lt_size_of_get? hs
  show (a.entries.setIfInBounds s.index _)[t.index]? = _
  rw [Array.getElem?_setIfInBounds]
  by_cases he : t = s
  · rw [if_pos he, he, if_pos rfl, if_pos hlt, hs]
    rfl
  · have hne : s.index ≠ t.index := fun hi => he (by cases s; cases t; simp_all)
    rw [if_neg he, if_neg hne]
    rfl

theorem length?_of_resolve? {a b : Spaces} {s : SpaceId} {length : Length}
    (h : a.resolve? s length = some b) (t : SpaceId) :
    b.length? t = if t = s then some length else a.length? t := by
  obtain ⟨space, hs, -, -, -⟩ := resolve?_eq_some h
  rw [length?, get?_of_resolve? h]
  split
  · rw [hs]; rfl
  · rfl

theorem isResolved_of_resolve? {a b : Spaces} {s : SpaceId} {length : Length}
    (h : a.resolve? s length = some b) (t : SpaceId) :
    b.isResolved t = (decide (t = s) || a.isResolved t) := by
  rw [isResolved, length?_of_resolve? h]
  by_cases he : t = s
  · rw [if_pos he, decide_eq_true he]; rfl
  · rw [if_neg he, decide_eq_false he]; rfl

theorem earlier_of_resolve? {a b : Spaces} {s : SpaceId} {length : Length}
    (h : a.resolve? s length = some b) : a.Earlier b := by
  intro t space ht
  obtain ⟨_, -, hno, -, -⟩ := resolve?_eq_some h
  by_cases he : t = s
  · subst he
    refine ⟨some length, ?_, fun l hl => ?_⟩
    · rw [get?_of_resolve? h, if_pos rfl, ht]; rfl
    · exact absurd (isResolved_iff.mpr ⟨l, by rw [length?, ht]; exact hl⟩) hno
  · exact ⟨space.length?, by rw [get?_of_resolve? h, if_neg he, ht], fun _ => id⟩

theorem size_of_resolve? {a b : Spaces} {s : SpaceId} {length : Length}
    (h : a.resolve? s length = some b) : b.size = a.size := by
  obtain ⟨_, -, -, -, rfl⟩ := resolve?_eq_some h
  exact Array.size_setIfInBounds

theorem length_unresolved_of_resolve? {a b : Spaces} {s : SpaceId} {length : Length}
    (h : a.resolve? s length = some b) : b.unresolved.length < a.unresolved.length := by
  obtain ⟨space, hs, hno, -, -⟩ := resolve?_eq_some h
  have hlt := lt_size_of_get? hs
  have heq : b.unresolved = a.unresolved.filter (· ≠ s) := by
    rw [unresolved, unresolved, size_of_resolve? h, List.filter_filter]
    refine List.filter_congr fun t _ => ?_
    rw [isResolved_of_resolve? h]
    by_cases he : t = s <;> simp [he]
  rw [heq]
  refine List.length_filter_lt_length_iff_exists.mpr ⟨s, ?_, by simp⟩
  exact List.mem_filter.mpr
    ⟨List.mem_map.mpr ⟨s.index, List.mem_range.mpr hlt, rfl⟩, by simpa using hno⟩

/-- A length in terms of open spaces may be given to an open space. -/
theorem Acyclic.resolve? {a b : Spaces} (ha : a.Acyclic) {s : SpaceId} {length : Length}
    (ho : ∀ t ∈ length.spaces.map Prod.fst, ¬ a.isResolved t)
    (h : a.resolve? s length = some b) : b.Acyclic := by
  obtain ⟨rank, hr⟩ := ha
  obtain ⟨_, -, hno, hself, -⟩ := resolve?_eq_some h
  have hlen := length_unresolved_of_resolve? h
  have hsize : a.unresolved.length ≤ a.size := by
    refine Nat.le_trans (List.length_filter_le _ _) ?_
    exact Nat.le_of_eq (by rw [List.length_map, List.length_range])
  -- The new length comes last in the order of being known, so all other ranks move up.
  refine ⟨fun t => if a.isResolved t then rank t + 1 else 0, ⟨fun {t l} hl u hu hb => ?_,
    fun {t} hb => ?_⟩⟩
  · rw [length?_of_resolve? h] at hl
    by_cases ht : t = s
    · rw [if_pos ht, Option.some.injEq] at hl
      subst hl
      rw [isResolved_of_resolve? h] at hb
      have hus : u ≠ s := fun he => hself (he ▸ hu)
      exact absurd (by simpa [hus] using hb) (ho u hu)
    · rw [if_neg ht] at hl
      have hres : a.isResolved t := isResolved_iff.mpr ⟨l, hl⟩
      by_cases hua : a.isResolved u
      · have := hr.lt hl u hu hua
        rw [if_pos hua, if_pos hres]
        omega
      · rw [if_neg hua, if_pos hres]
        omega
  · rw [size_of_resolve? h]
    by_cases hta : a.isResolved t
    · have := hr.bounded hta
      rw [if_pos hta]
      omega
    · rw [if_neg hta]
      omega

end Spaces

end Assembler
