import Assembler.Proofs.Index
/-!
Searches of the table of pending work.

A search finds what can be reached along waiting lists (`mem_reachable`), so it tells exactly whether work
would wait for its own product (`createsCycle_iff`). Work is registered only if it would not, and so the
waiting lists stay without cycles (`Acyclic.reinsert`). Then everything waits for something in the end
that no pending work will produce (`Acyclic.exists_root`).
-/

namespace Assembler.PendingTable

variable {τ : Type} {t u : PendingTable τ} {p q r : Prerequisite}

/-! ## 1. Reachability -/

/-- Whether the work that will produce `p` waits for `q`. -/
def Waits (t : PendingTable τ) (p q : Prerequisite) : Prop :=
  ∃ waiting, t.waitingOf? p = some waiting ∧ q ∈ waiting

/-- Whether `p` is `q` or waits for `q` in the end. -/
inductive Reaches (t : PendingTable τ) : Prerequisite → Prerequisite → Prop
  | refl (p : Prerequisite) : Reaches t p p
  | step {p q r : Prerequisite} : t.Waits p q → Reaches t q r → Reaches t p r

theorem Reaches.trans (h : t.Reaches p q) (h' : t.Reaches q r) : t.Reaches p r := by
  induction h with
  | refl => exact h'
  | step hw _ ih => exact .step hw (ih h')

theorem reaches_of_mem_visit {seen : Std.TreeSet Prerequisite} {stack : List Prerequisite}
    (h : q ∈ t.visit seen stack) : ∃ p ∈ stack, t.Reaches p q := by
  fun_induction visit t seen stack with
  | case1 => cases h
  | case2 seen p rest hs ih =>
    obtain ⟨p', hp', hq⟩ := ih h
    exact ⟨p', List.mem_cons_of_mem _ hp', hq⟩
  | case3 seen p rest hs hw ih =>
    rcases List.mem_cons.mp h with rfl | h
    · exact ⟨q, List.mem_cons_self, .refl q⟩
    · obtain ⟨p', hp', hq⟩ := ih h
      exact ⟨p', List.mem_cons_of_mem _ hp', hq⟩
  | case4 seen p rest hs waiting hw ih =>
    rcases List.mem_cons.mp h with rfl | h
    · exact ⟨q, List.mem_cons_self, .refl q⟩
    · obtain ⟨p', hp', hq⟩ := ih h
      rcases List.mem_append.mp hp' with hp' | hp'
      · exact ⟨p, List.mem_cons_self, .step ⟨waiting, hw, hp'⟩ hq⟩
      · exact ⟨p', List.mem_cons_of_mem _ hp', hq⟩

theorem mem_insert {seen : Std.TreeSet Prerequisite} : q ∈ seen.insert p ↔ q = p ∨ q ∈ seen := by
  rw [Std.TreeSet.mem_insert, Std.LawfulEqOrd.compare_eq_iff_eq, @eq_comm _ p q]

theorem mem_visit_of_mem {seen : Std.TreeSet Prerequisite} {stack : List Prerequisite}
    (h : p ∈ stack) : p ∈ seen ∨ p ∈ t.visit seen stack := by
  fun_induction visit t seen stack with
  | case1 => cases h
  | case2 seen p' rest hs ih =>
    rcases List.mem_cons.mp h with rfl | h
    · exact .inl hs
    · exact ih h
  | case3 seen p' rest hs hw ih =>
    rcases List.mem_cons.mp h with rfl | h
    · exact .inr List.mem_cons_self
    · rcases ih h with h | h
      · rcases mem_insert.mp h with rfl | h
        · exact .inr List.mem_cons_self
        · exact .inl h
      · exact .inr (List.mem_cons_of_mem _ h)
  | case4 seen p' rest hs waiting hw ih =>
    rcases List.mem_cons.mp h with rfl | h
    · exact .inr List.mem_cons_self
    · rcases ih (List.mem_append_right _ h) with h | h
      · rcases mem_insert.mp h with rfl | h
        · exact .inr List.mem_cons_self
        · exact .inl h
      · exact .inr (List.mem_cons_of_mem _ h)

/-- A search goes on from everything it meets. -/
theorem mem_visit_of_waits {seen : Std.TreeSet Prerequisite} {stack : List Prerequisite}
    (h : q ∈ t.visit seen stack) (hw : t.Waits q r) : r ∈ seen ∨ r ∈ t.visit seen stack := by
  fun_induction visit t seen stack with
  | case1 => cases h
  | case2 seen p rest hs ih => exact ih h
  | case3 seen p rest hs hnone ih =>
    rcases List.mem_cons.mp h with rfl | h
    · obtain ⟨waiting, hsome, -⟩ := hw
      rw [hnone] at hsome
      cases hsome
    · rcases ih h with h | h
      · rcases mem_insert.mp h with rfl | h
        · exact .inr List.mem_cons_self
        · exact .inl h
      · exact .inr (List.mem_cons_of_mem _ h)
  | case4 seen p rest hs waiting hsome ih =>
    have hmem : r ∈ seen.insert p ∨ r ∈ t.visit (seen.insert p) (waiting ++ rest) := by
      rcases List.mem_cons.mp h with rfl | h
      · obtain ⟨waiting', hsome', hr⟩ := hw
        rw [hsome] at hsome'
        cases hsome'
        exact mem_visit_of_mem (List.mem_append_left _ hr)
      · exact ih h
    rcases hmem with h | h
    · rcases mem_insert.mp h with rfl | h
      · exact .inr List.mem_cons_self
      · exact .inl h
    · exact .inr (List.mem_cons_of_mem _ h)

/-- A search meets what can be reached along waiting lists, and nothing else. -/
theorem mem_reachable {waiting : List Prerequisite} :
    q ∈ t.reachable waiting ↔ ∃ p ∈ waiting, t.Reaches p q := by
  refine ⟨reaches_of_mem_visit, ?_⟩
  rintro ⟨p, hp, hreach⟩
  have hstart : p ∈ t.reachable waiting :=
    (mem_visit_of_mem hp).resolve_left Std.TreeSet.not_mem_emptyc
  clear hp
  induction hreach with
  | refl => exact hstart
  | step hw _ ih =>
    exact ih ((mem_visit_of_waits hstart hw).resolve_left Std.TreeSet.not_mem_emptyc)

theorem createsCycle_iff {waiting : List Prerequisite} :
    t.createsCycle q waiting ↔ ∃ p ∈ waiting, t.Reaches p q := by
  rw [createsCycle, decide_eq_true_iff, mem_reachable]

theorem mem_missingRoots {waiting : List Prerequisite} :
    q ∈ t.missingRoots waiting ↔ (∃ p ∈ waiting, t.Reaches p q) ∧ t.waitingOf? q = none := by
  rw [missingRoots, List.mem_filter, mem_reachable, Option.isNone_iff_eq_none]

/-! ## 2. Waiting lists without cycles -/

/-- Whether nothing waits for itself in the end. -/
def Acyclic (t : PendingTable τ) : Prop := ∀ p q, t.Waits p q → ¬ t.Reaches q p

theorem Reaches.of_waits (h : ∀ p q, u.Waits p q → t.Waits p q) (hr : u.Reaches p q) :
    t.Reaches p q := by
  induction hr with
  | refl => exact .refl _
  | step hw _ ih => exact .step (h _ _ hw) ih

theorem Acyclic.of_waits (ht : t.Acyclic) (h : ∀ p q, u.Waits p q → t.Waits p q) : u.Acyclic :=
  fun p q hw hr => ht p q (h p q hw) (hr.of_waits h)

theorem acyclic_clear (t : PendingTable τ) : t.clear.Acyclic := by
  intro p q hpq
  obtain ⟨waiting, hw, -⟩ := hpq
  have hnone : t.clear.waitingOf? p = none := by
    rw [waitingOf?, show t.clear.producer? p = none from Std.ExtTreeMap.getElem?_empty]
    rfl
  rw [hnone] at hw
  cases hw

theorem mem_producers_of_waitingOf? {waiting : List Prerequisite} (h : t.waitingOf? p = some waiting) :
    p ∈ t.producers.keys := by
  simp only [waitingOf?, producer?, Option.map_eq_some_iff, Option.bind_eq_some_iff] at h
  obtain ⟨_, ⟨_, hid, _⟩, _⟩ := h
  exact Std.ExtTreeMap.mem_keys.mpr (Std.ExtTreeMap.mem_iff_isSome_getElem?.mpr (by rw [hid]; rfl))

/-- Everything waits in the end for something that no pending work will produce. -/
theorem Acyclic.exists_root (ht : t.Acyclic)
    (hne : ∀ key waiting, t.waitingOf? key = some waiting → waiting ≠ [])
    (p : Prerequisite) : ∃ q, t.Reaches p q ∧ t.waitingOf? q = none := by
  -- The search never comes back to what it has passed, so what is left to pass becomes less.
  have search : ∀ (n : Nat) (seen : Std.TreeSet Prerequisite) (p : Prerequisite),
      t.unseen seen = n → (∀ x ∈ seen, ∃ y, t.Waits x y ∧ t.Reaches y p) →
        ∃ q, t.Reaches p q ∧ t.waitingOf? q = none := by
    intro n
    induction n using Nat.strongRecOn with
    | _ n ih =>
      intro seen p hn hseen
      cases hw : t.waitingOf? p with
      | none => exact ⟨p, .refl p, hw⟩
      | some waiting =>
        obtain ⟨q, rest, hq⟩ := List.exists_cons_of_ne_nil (hne p waiting hw)
        have hstep : t.Waits p q := ⟨waiting, hw, by rw [hq]; exact List.mem_cons_self⟩
        have hnew : p ∉ seen := by
          intro hmem
          obtain ⟨y, hwy, hy⟩ := hseen p hmem
          exact ht p y hwy hy
        have hkey := mem_producers_of_waitingOf? hw
        have hlt : t.unseen (seen.insert p) < n := hn ▸ unseen_insert_lt hkey hnew
        obtain ⟨root, hroot, hnone⟩ := ih _ hlt (seen.insert p) q rfl fun x hx => by
          rcases mem_insert.mp hx with rfl | hx
          · exact ⟨q, hstep, .refl q⟩
          · obtain ⟨y, hwy, hy⟩ := hseen x hx
            exact ⟨y, hwy, hy.trans (.step hstep (.refl q))⟩
        exact ⟨root, .step hstep hroot, hnone⟩
  exact search _ ∅ p rfl fun x hx => absurd hx Std.TreeSet.not_mem_emptyc

variable [Produces τ] {id : Nat} {w : Pending τ}

theorem waits_of_take (ht : t.Indexed) (h : t.take? id = some (w, u)) (hw : u.Waits p q) :
    t.Waits p q := by
  obtain ⟨waiting, hsome, hq⟩ := hw
  obtain ⟨j, x, hx, hkey, rfl⟩ := (ht.take h).waitingOf?_eq_some.mp hsome
  rw [get?_take h] at hx
  split at hx
  · cases hx
  · exact ⟨_, ht.waitingOf?_eq_some.mpr ⟨j, x, hx, hkey, rfl⟩, hq⟩

theorem Acyclic.take (ha : t.Acyclic) (ht : t.Indexed) (h : t.take? id = some (w, u)) :
    u.Acyclic := ha.of_waits fun _ _ => waits_of_take ht h

theorem waits_of_reinsert (ht : t.Indexed) (hu : (t.reinsert id w).Indexed)
    (hw : (t.reinsert id w).Waits p q) :
    t.Waits p q ∨ (product? w.work = some p ∧ q ∈ w.waiting) := by
  obtain ⟨waiting, hsome, hq⟩ := hw
  obtain ⟨j, x, hx, hkey, rfl⟩ := hu.waitingOf?_eq_some.mp hsome
  rw [get?_reinsert] at hx
  split at hx
  · cases hx
    exact .inr ⟨hkey, hq⟩
  · exact .inl ⟨_, ht.waitingOf?_eq_some.mpr ⟨j, x, hx, hkey, rfl⟩, hq⟩

/-- Putting in work that does not wait for its own product makes no cycle. -/
theorem Acyclic.reinsert (ha : t.Acyclic) (ht : t.Indexed) (hu : (t.reinsert id w).Indexed)
    (hno : ∀ key, product? w.work = some key → ¬ t.createsCycle key w.waiting) :
    (t.reinsert id w).Acyclic := by
  have clear : ∀ key, product? w.work = some key → ∀ x ∈ w.waiting, ¬ t.Reaches x key :=
    fun key hkey x hx hr => hno key hkey (createsCycle_iff.mpr ⟨x, hx, hr⟩)
  -- A way either was there before, or it passes the new work.
  have split : ∀ p q, (t.reinsert id w).Reaches p q → t.Reaches p q ∨
      ∃ key, product? w.work = some key ∧ t.Reaches p key ∧ ∃ x ∈ w.waiting, t.Reaches x q := by
    intro p q hr
    induction hr with
    | refl p => exact .inl (.refl p)
    | step hw _ ih =>
      rcases waits_of_reinsert ht hu hw with hw | ⟨hkey, hmem⟩
      · rcases ih with hr | ⟨key, hkey, hr, hx⟩
        · exact .inl (.step hw hr)
        · exact .inr ⟨key, hkey, .step hw hr, hx⟩
      · rcases ih with hr | ⟨key, hkey', hr, hx⟩
        · exact .inr ⟨_, hkey, .refl _, _, hmem, hr⟩
        · exact .inr ⟨_, hkey, .refl _, hx⟩
  intro p q hw hr
  rcases waits_of_reinsert ht hu hw with hw | ⟨hkey, hmem⟩
  · rcases split q p hr with hr | ⟨key, hkey, hr, x, hx, hxp⟩
    · exact ha p q hw hr
    · exact clear key hkey x hx (hxp.trans (.step hw hr))
  · rcases split q p hr with hr | ⟨key, hkey', hr, -⟩
    · exact clear p hkey q hmem hr
    · exact clear key hkey' q hmem hr

theorem Acyclic.register (ha : t.Acyclic) (ht : t.Indexed) (hu : (t.register w).Indexed)
    (hno : ∀ key, product? w.work = some key → ¬ t.createsCycle key w.waiting) :
    (t.register w).Acyclic := by
  have hnext : ({ t with next := t.next + 1 } : PendingTable τ).Indexed :=
    ⟨fun id q hq => Nat.lt_succ_of_lt (ht.fresh id q hq), ht.waiters, ht.producers⟩
  have same : ∀ p q, ({ t with next := t.next + 1 } : PendingTable τ).Waits p q → t.Waits p q :=
    fun _ _ => id
  refine (ha.of_waits same).reinsert hnext hu fun key hkey hcycle => hno key hkey ?_
  obtain ⟨x, hx, hr⟩ := createsCycle_iff.mp hcycle
  exact createsCycle_iff.mpr ⟨x, hx, hr.of_waits same⟩

end Assembler.PendingTable
