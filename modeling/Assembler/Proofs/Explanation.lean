import Assembler.Proofs.Cycle
/-!
What is reported as undefined at the end of the source.

Every piece of pending work lacks something in the end. The names among what it lacks are reported, each
once (`exists_reports_explainAll`).
-/

namespace Assembler

/-- The report of a name that is not defined. -/
def undefinedReport (u : Name × Location) : Diagnostic :=
  .ofFault (.unresolved "ordinary symbol" u.1.text) u.2

namespace Assembly

variable {s t u : Assembly}

/-! ## 1. Reports -/

/-- Whether the only difference is that some further names have been reported as undefined. -/
structure Reports (s t : Assembly) (us : List (Name × Location)) : Prop where
  state : t = { s with
    reported := s.reported ++ us.map Prod.fst
    diagnostics := s.diagnostics ++ us.map undefinedReport }
  nodup : s.reported.Nodup → t.reported.Nodup

/-- Whether pending work that waits for `waiting` lacks the name `n` in the end. -/
def Misses (s : Assembly) (waiting : List Prerequisite) (n : Name) : Prop :=
  ∃ root, s.Root waiting root ∧ s.reportable? root = some n

theorem Reports.refl (s : Assembly) : s.Reports s [] := by
  refine ⟨?_, id⟩
  simp

theorem Reports.trans {us vs : List (Name × Location)} (h : s.Reports t us) (h' : t.Reports u vs) :
    s.Reports u (us ++ vs) := by
  refine ⟨?_, h'.nodup ∘ h.nodup⟩
  rw [h'.state, h.state]
  simp

theorem Reports.pendings {us : List (Name × Location)} (h : s.Reports t us) :
    t.pendings = s.pendings := by
  rw [h.state]

theorem Reports.settings {us : List (Name × Location)} (h : s.Reports t us) :
    t.settings = s.settings := by
  rw [h.state]

/-- What is missing depends on the symbols and the pending work only. -/
theorem Alike.misses (h : s.Alike t) (waiting : List Prerequisite) (n : Name) :
    t.Misses waiting n ↔ s.Misses waiting n := by
  have hroot : ∀ root, t.Root waiting root ↔ s.Root waiting root := fun root => by
    rw [Root, Root, h.pendings]
  have hname : ∀ root, t.reportable? root = s.reportable? root := fun root => by
    unfold reportable?
    rw [h.symbols]
  exact exists_congr fun root => by rw [hroot, hname]

theorem Reports.misses {us : List (Name × Location)} (h : s.Reports t us) (waiting : List Prerequisite)
    (n : Name) : t.Misses waiting n ↔ s.Misses waiting n := by
  rw [h.state]
  rfl

theorem mem_reported_reportUndefined {n m : Name} {location : Location} :
    m ∈ (s.reportUndefined n location).reported ↔ m ∈ s.reported ∨ m = n := by
  unfold reportUndefined
  split
  · rename_i hn
    constructor
    · exact .inl
    · rintro (hm | rfl)
      · exact hm
      · exact hn
  · rw [report, (steady_addDiagnostic _ _).reported, List.mem_append, List.mem_singleton]

theorem mem_reported_foldl {names : List Name} {m : Name} {location : Location} :
    m ∈ (names.foldl (fun s n => s.reportUndefined n location) s).reported ↔ m ∈ s.reported ∨ m ∈ names := by
  induction names generalizing s with
  | nil => simp
  | cons n rest ih => rw [List.foldl_cons, ih, mem_reported_reportUndefined, List.mem_cons, or_assoc]

theorem exists_reports_reportUndefined (hroom : s.settings.maxDiagnostics = 0) (n : Name)
    (location : Location) : ∃ us, s.Reports (s.reportUndefined n location) us := by
  unfold reportUndefined
  by_cases hn : n ∈ s.reported
  · rw [if_pos hn]
    exact ⟨[], .refl s⟩
  · rw [if_neg hn]
    have hreport : ({ s with reported := s.reported ++ [n] } : Assembly).report
        (.unresolved "ordinary symbol" n.text) location = { s with
          reported := s.reported ++ [n]
          diagnostics := s.diagnostics ++ [undefinedReport (n, location)] } := by
      rw [report, addDiagnostic, if_neg]
      · rfl
      · show ¬ (0 < s.settings.maxDiagnostics ∧ _)
        omega
    rw [hreport]
    refine ⟨[(n, location)], rfl, fun hs => ?_⟩
    exact List.nodup_append.mpr ⟨hs, by simp, by
      rintro a ha b hb rfl
      exact hn (List.mem_singleton.mp hb ▸ ha)⟩

theorem exists_reports_foldl (hroom : s.settings.maxDiagnostics = 0) (names : List Name)
    (location : Location) :
    ∃ us, s.Reports (names.foldl (fun s n => s.reportUndefined n location) s) us := by
  induction names generalizing s with
  | nil => exact ⟨[], .refl s⟩
  | cons n rest ih =>
    obtain ⟨us, hus⟩ := exists_reports_reportUndefined hroom n location
    obtain ⟨vs, hvs⟩ := ih (by rw [hus.settings]; exact hroom)
    exact ⟨us ++ vs, hus.trans hvs⟩

/-! ## 2. Explanations -/

theorem mem_filterMap_reportable? {waiting : List Prerequisite} {n : Name} :
    n ∈ (s.pendings.missingRoots waiting).filterMap s.reportable? ↔ s.Misses waiting n := by
  rw [List.mem_filterMap]
  exact exists_congr fun root => by rw [mem_missingRoots]

/-- Just the names that work misses are reported. -/
theorem mem_reported_explain {waiting : List Prerequisite} {n : Name} {location : Location} :
    n ∈ (s.explain waiting location).2.reported ↔ n ∈ s.reported ∨ s.Misses waiting n := by
  simp only [explain]
  split
  · rename_i hroots
    -- Work that lacks nothing misses no name.
    have hnone : ¬ s.Misses waiting n := by
      rw [← mem_filterMap_reportable?, List.isEmpty_iff.mp hroots]
      exact List.not_mem_nil
    rw [report, (steady_addDiagnostic _ _).reported]
    exact (or_iff_left hnone).symm
  · rw [mem_reported_foldl, mem_filterMap_reportable?]

/-- Work that misses a name is accounted for. -/
theorem exists_reports_explain (hroom : s.settings.maxDiagnostics = 0)
    {waiting : List Prerequisite} (hmiss : ∃ n, s.Misses waiting n) (location : Location) :
    (s.explain waiting location).1 = true ∧ ∃ us, s.Reports (s.explain waiting location).2 us := by
  obtain ⟨n, hn⟩ := hmiss
  have ⟨root, hroot, _⟩ := hn
  have hroots : (s.pendings.missingRoots waiting).isEmpty = false := by
    rw [List.isEmpty_eq_false_iff]
    exact List.ne_nil_of_mem (mem_missingRoots.mpr hroot)
  simp only [explain, hroots, Bool.false_eq_true, if_false]
  refine ⟨?_, exists_reports_foldl hroom _ location⟩
  rw [Bool.not_eq_true', List.isEmpty_eq_false_iff]
  exact List.ne_nil_of_mem (mem_filterMap_reportable?.mpr hn)

theorem mem_reported_foldl_explainEntry {l : List (Nat × Pending Job)} {found : List Nat × Assembly} {n : Name} :
    n ∈ (l.foldl explainEntry found).2.reported ↔ n ∈ found.2.reported ∨
      ∃ x ∈ l, x.2.work.task.product?.isSome ∧ found.2.Misses x.2.waiting n := by
  induction l generalizing found with
  | nil => simp
  | cons x rest ih =>
    simp only [List.foldl_cons, ih, List.mem_cons, exists_eq_or_imp, ← or_assoc]
    by_cases hsome : x.2.work.task.product?.isSome
    · have hmisses : ∀ waiting, (explainEntry found x).2.Misses waiting n ↔ found.2.Misses waiting n := by
        rw [explainEntry, if_pos hsome]
        exact fun waiting => (alike_explain _ _ _).misses waiting n
      have hfirst : n ∈ (explainEntry found x).2.reported ↔
          n ∈ found.2.reported ∨ found.2.Misses x.2.waiting n := by
        rw [explainEntry, if_pos hsome]
        exact mem_reported_explain
      simp only [hmisses, hfirst, hsome, true_and]
    · simp only [explainEntry, hsome, if_false, false_and, or_false, Bool.false_eq_true]

/-- Just the names that pending work misses are reported. -/
theorem mem_reported_explainAll {n : Name} : n ∈ s.explainAll.2.reported ↔ n ∈ s.reported ∨
    ∃ id p, s.pendings.get? id = some p ∧ p.work.task.product?.isSome ∧ s.Misses p.waiting n := by
  rw [explainAll_eq, mem_reported_foldl_explainEntry]
  refine or_congr_right ⟨?_, ?_⟩
  · rintro ⟨x, hx, hmiss⟩
    exact ⟨x.1, x.2, Std.ExtTreeMap.mem_toList_iff_getElem?_eq_some.mp hx, hmiss⟩
  · rintro ⟨id, p, hp, hmiss⟩
    exact ⟨(id, p), Std.ExtTreeMap.mem_toList_iff_getElem?_eq_some.mpr hp, hmiss⟩

theorem exists_reports_foldl_explainEntry (hroom : s.settings.maxDiagnostics = 0)
    (l : List (Nat × Pending Job))
    (hl : ∀ x ∈ l, x.2.work.task.product?.isSome ∧ ∃ n, s.Misses x.2.waiting n)
    (found : List Nat × Assembly) {us : List (Name × Location)} (hfound : s.Reports found.2 us) :
    (∀ id ∈ found.1, id ∈ (l.foldl explainEntry found).1) ∧
      (∀ x ∈ l, x.1 ∈ (l.foldl explainEntry found).1) ∧
      ∃ vs, s.Reports (l.foldl explainEntry found).2 vs := by
  induction l generalizing found us with
  | nil => exact ⟨fun _ hid => hid, fun _ hx => absurd hx List.not_mem_nil, us, hfound⟩
  | cons x rest ih =>
    obtain ⟨hsome, n, hn⟩ := hl x List.mem_cons_self
    obtain ⟨haccounted, vs, hvs⟩ := exists_reports_explain
      (by rw [hfound.settings]; exact hroom) ⟨n, (hfound.misses _ n).mpr hn⟩
      x.2.work.frame.location
    have hentry : explainEntry found x =
        (found.1 ++ [x.1], (found.2.explain x.2.waiting x.2.work.frame.location).2) := by
      rw [explainEntry, if_pos hsome]
      dsimp only
      rw [haccounted, if_pos rfl]
    obtain ⟨hkept, hothers, hrest⟩ := ih
      (fun y hy => hl y (List.mem_cons_of_mem _ hy)) (explainEntry found x)
      (by rw [hentry]; exact hfound.trans hvs)
    rw [List.foldl_cons]
    refine ⟨fun id hid => hkept id ?_, fun y hy => ?_, hrest⟩
    · rw [hentry]
      exact List.mem_append_left _ hid
    · rcases List.mem_cons.mp hy with rfl | hy
      · apply hkept
        rw [hentry]
        exact List.mem_append_right _ List.mem_cons_self
      · exact hothers y hy

/-- If all pending work produces something and misses some name, all of it is explained, and just the
names that it misses are reported. -/
theorem exists_reports_explainAll (hroom : s.settings.maxDiagnostics = 0)
    (h : ∀ id p, s.pendings.get? id = some p →
      p.work.task.product?.isSome ∧ ∃ n, s.Misses p.waiting n) :
    (∀ id p, s.pendings.get? id = some p → id ∈ s.explainAll.1) ∧
      ∃ us, s.Reports s.explainAll.2 us ∧ ∀ m, m ∈ s.explainAll.2.reported ↔
        m ∈ s.reported ∨ ∃ id p, s.pendings.get? id = some p ∧ s.Misses p.waiting m := by
  have hlist : ∀ x, x ∈ s.pendings.toList ↔ s.pendings.get? x.1 = some x.2 := fun x =>
    Std.ExtTreeMap.mem_toList_iff_getElem?_eq_some
  obtain ⟨-, hids, us, hus⟩ := exists_reports_foldl_explainEntry hroom s.pendings.toList
    (fun x hx => h x.1 x.2 ((hlist x).mp hx)) ([], s) (.refl s)
  refine ⟨fun id p hp => hids (id, p) ((hlist _).mpr hp), us, hus, fun m => ?_⟩
  rw [mem_reported_explainAll]
  refine or_congr_right (exists_congr fun id => exists_congr fun p => and_congr_right fun hp => ?_)
  exact and_iff_right (h id p hp).1

end Assembly

end Assembler
