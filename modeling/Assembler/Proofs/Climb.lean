import Assembler.Proofs.Boundary
/-!
Counters that climb.

A counter goes up, or it leaves its position after that has been marked (`Counter.Climbs`). A mark is dropped only
when another candidate is known not to be below it. So every place that a counter has had is at or below one of
its candidates (`Covers`), and so it is at or below the highest of them.
-/

namespace Assembler

/-! ## 1. Heights -/

namespace Address

/-- The number of bytes to a place as an integer. -/
def height (τ : SpaceId → Int32) (x : Address) : Int := (x.bytes τ).toInt

/-- Whether the distances between places fit into 32 bits. -/
def WithinRange (τ : SpaceId → Int32) (places : List Address) : Prop :=
  ∀ x ∈ places, ∀ y ∈ places, (x.bytes τ - y.bytes τ).toInt = x.height τ - y.height τ

variable {a : Spaces} {τ : SpaceId → Int32} {x y : Address} {places others : List Address}

theorem WithinRange.subset (h : WithinRange τ places) (hsub : others ⊆ places) : WithinRange τ others :=
  fun x hx y hy => h x (hsub hx) y (hsub hy)

/-- Going up by a number of bytes that is not negative leads higher. -/
theorem height_le_of_bytes (hfit : (y.bytes τ - x.bytes τ).toInt = y.height τ - x.height τ) {n : Int32}
    (hn : 0 ≤ n.toInt) (heq : y.bytes τ = x.bytes τ + n) : x.height τ ≤ y.height τ := by
  have hgap : y.bytes τ - x.bytes τ = n := by
    rw [heq]
    grind
  rw [hgap] at hfit
  omega

/-- A place that is known not to lie below another one is not below it. -/
theorem height_le_of_reaches (hτ : a.Fits τ)
    (hfit : (x.bytes τ - y.bytes τ).toInt = x.height τ - y.height τ) (h : x.reaches a y) :
    y.height τ ≤ x.height τ := by
  unfold reaches distance? at h
  dsimp only at h
  split at h
  · rename_i hknown
    have hbytes : ((x - y).normalize a).offset = x.bytes τ - y.bytes τ :=
      Length.bytes_between (List.isEmpty_iff.mp hknown.2) hτ
    rw [Option.any_some, decide_eq_true_eq, hbytes, Int32.le_iff_toInt_le, hfit] at h
    have hzero : (0 : Int32).toInt = 0 := rfl
    omega
  · cases h

/-- A comparison that does not have to wait is one of places whose distance is known. -/
theorem spaces_eq_nil_of_highestStep {state : Address × List SpaceId} {c : Address}
    (hnil : (highestStep a state c).2 = []) : ((c - state.1).normalize a).spaces = [] := by
  refine Classical.byContradiction fun hne => ?_
  obtain ⟨t, ht⟩ := List.exists_mem_of_ne_nil _ hne
  have hmem : t.1 ∈ (highestStep a state c).2 := by
    simp only [highestStep, if_neg fun hempty => hne (List.isEmpty_iff.mp hempty)]
    exact SpaceId.mem_foldl_insert.mpr (.inr (List.mem_map_of_mem ht))
  rw [hnil] at hmem
  cases hmem

/-- Whether the distance from `x` to `y`, if it is known, is the difference of what `e` measures. -/
def Measures (a : Spaces) (e : Address → Int) (x y : Address) : Prop :=
  ((y - x).normalize a).spaces = [] → ((y - x).normalize a).offset.toInt = e y - e x

/-- It leads to the higher place, however places are measured. -/
theorem le_highestStep {e : Address → Int} {state : Address × List SpaceId} {c : Address}
    (h : Measures a e state.1 c) (hnil : (highestStep a state c).2 = []) :
    e state.1 ≤ e (highestStep a state c).1 ∧ e c ≤ e (highestStep a state c).1 := by
  have hspaces := spaces_eq_nil_of_highestStep hnil
  have hzero : (0 : Int32).toInt = 0 := rfl
  simp only [highestStep, if_pos (List.isEmpty_iff.mpr hspaces)]
  split
  · rename_i hlt
    rw [Int32.lt_iff_toInt_lt, h hspaces] at hlt
    exact ⟨by omega, le_refl _⟩
  · rename_i hle
    rw [Int32.lt_iff_toInt_lt, h hspaces] at hle
    exact ⟨le_refl _, by omega⟩

/-- Whether a relation holds whenever a search compares a candidate with the highest place before it. -/
def Compares (a : Spaces) (P : Address → Address → Prop) : Address × List SpaceId → List Address → Prop
  | _, [] => True
  | state, c :: others => P state.1 c ∧ Compares a P (highestStep a state c) others

theorem Compares.imp {P Q : Address → Address → Prop} {state : Address × List SpaceId}
    (h : Compares a P state others) (hPQ : ∀ x y, P x y → Q x y) : Compares a Q state others := by
  induction others generalizing state with
  | nil => trivial
  | cons c rest ih => exact ⟨hPQ _ _ h.1, ih h.2⟩

/-- A search compares its candidates only. -/
theorem compares_of_subset {P : Address → Address → Prop} (h : ∀ x ∈ places, ∀ y ∈ places, P x y)
    {state : Address × List SpaceId} (hstate : state.1 ∈ places) (hothers : others ⊆ places) :
    Compares a P state others := by
  induction others generalizing state with
  | nil => trivial
  | cons c rest ih =>
    have hc := hothers List.mem_cons_self
    refine ⟨h _ hstate c hc, ih ?_ fun y hy => hothers (List.mem_cons_of_mem _ hy)⟩
    simp only [highestStep]
    split
    · split
      · exact hc
      · exact hstate
    · exact hstate

/-- So does the whole search. -/
theorem le_foldl_highestStep {e : Address → Int} {state : Address × List SpaceId}
    (h : Compares a (Measures a e) state others) (hnil : (others.foldl (highestStep a) state).2 = []) :
    ∀ y ∈ state.1 :: others, e y ≤ e (others.foldl (highestStep a) state).1 := by
  induction others generalizing state with
  | nil =>
    intro y hy
    rw [List.mem_singleton.mp hy]
    exact le_refl _
  | cons c rest ih =>
    have hstep : (highestStep a state c).2 = [] := List.eq_nil_iff_forall_not_mem.mpr fun s hs => by
      have hmem : s ∈ (rest.foldl (highestStep a) (highestStep a state c)).2 := subset_foldl_highestStep hs
      rw [show (rest.foldl (highestStep a) (highestStep a state c)).2 = [] from hnil] at hmem
      cases hmem
    have hhigher := le_highestStep h.1 hstep
    have hrest := ih h.2 hnil
    have hfirst := hrest _ List.mem_cons_self
    intro y hy
    rw [List.foldl_cons]
    rcases List.mem_cons.mp hy with rfl | hy
    · exact hhigher.1.trans hfirst
    · rcases List.mem_cons.mp hy with rfl | hy
      · exact hhigher.2.trans hfirst
      · exact hrest y (List.mem_cons_of_mem _ hy)

/-- The highest of some candidates is not below any of them. -/
theorem height_le_highest (hτ : a.Fits τ) (hfit : WithinRange τ places) (h : highest a places = .ok x) :
    ∀ y ∈ places, y.height τ ≤ x.height τ := by
  cases places with
  | nil => cases h
  | cons first others =>
    obtain ⟨hnil, rfl⟩ := highest_eq_ok.mp h
    have hcompares : Compares a (fun y z => (z.bytes τ - y.bytes τ).toInt = z.height τ - y.height τ) (first, [])
        others :=
      compares_of_subset (fun y hy z hz => hfit z hz y hy) List.mem_cons_self (List.subset_cons_self _ _)
    refine le_foldl_highestStep (hcompares.imp fun y z hyz hspaces => ?_) hnil
    have hbytes : ((z - y).normalize a).offset = z.bytes τ - y.bytes τ := Length.bytes_between hspaces hτ
    rw [hbytes, hyz]

end Address

/-! ## 2. Counters -/

namespace Counter

variable {τ : SpaceId → Int32} {c c' : Counter} {a : Spaces}

theorem mem_candidates_of_mark {x : Address} (h : x ∈ (c.mark a).marks) : x ∈ c.candidates := by
  unfold mark at h
  split at h
  · exact List.mem_append_left _ h
  · rcases List.mem_append.mp h with h | h
    · exact List.mem_append_left _ (List.mem_filter.mp h).1
    · exact List.mem_append_right _ h

/-- After a position is marked, every candidate is at or below a mark. -/
theorem exists_mark (hτ : a.Fits τ) (hfit : Address.WithinRange τ c.candidates) {x : Address}
    (hx : x ∈ c.candidates) : ∃ y ∈ (c.mark a).marks, x.height τ ≤ y.height τ := by
  have hposition : c.position ∈ c.candidates := List.mem_append_right _ List.mem_cons_self
  have hmarks : ∀ y ∈ c.marks, y ∈ c.candidates := fun y hy => List.mem_append_left _ hy
  unfold mark
  split
  · rename_i hany
    obtain ⟨y, hy, hreaches⟩ := List.any_eq_true.mp hany
    rcases List.mem_append.mp hx with hx | hx
    · exact ⟨x, hx, le_refl _⟩
    · rw [List.mem_singleton.mp hx]
      exact ⟨y, hy, Address.height_le_of_reaches hτ (hfit _ (hmarks y hy) _ hposition) hreaches⟩
  · have hlast : c.position ∈ c.marks.filter (!c.position.reaches a ·) ++ [c.position] :=
      List.mem_append_right _ List.mem_cons_self
    rcases List.mem_append.mp hx with hx | hx
    · by_cases hreaches : c.position.reaches a x
      · exact ⟨c.position, hlast,
          Address.height_le_of_reaches hτ (hfit _ hposition _ (hmarks x hx)) hreaches⟩
      · refine ⟨x, List.mem_append_left _ (List.mem_filter.mpr ⟨hx, ?_⟩), le_refl _⟩
        simpa using hreaches
    · rw [List.mem_singleton.mp hx]
      exact ⟨c.position, hlast, le_refl _⟩

/-- What a counter does at once: it goes up, or it leaves its position, which is marked. -/
inductive Climbs (τ : SpaceId → Int32) (c c' : Counter) : Prop
  | rise (n : Int32) : 0 ≤ n.toInt → c'.origin = c.origin → c'.marks = c.marks →
    c'.position.bytes τ = c.position.bytes τ + n → Climbs τ c c'
  | leave (a : Spaces) : a.Fits τ → c'.origin = c.origin → c'.marks = (c.mark a).marks → Climbs τ c c'

theorem Climbs.refl (c : Counter) : c.Climbs τ c :=
  .rise 0 (le_refl _) rfl rfl (Int32.add_zero _).symm

theorem Climbs.origin (h : c.Climbs τ c') : c'.origin = c.origin := by
  cases h <;> assumption

theorem climbs_advance (c : Counter) {n : Int32} (hn : 0 ≤ n.toInt) : c.Climbs τ (c.advance n) :=
  .rise n hn rfl rfl (Address.bytes_addOffset τ c.position n)

theorem climbs_pass (c : Counter) {k : SpaceId} (hk : 0 ≤ (τ k).toInt) : c.Climbs τ (c.pass k) :=
  .rise (τ k) hk rfl rfl (Address.bytes_addSpace τ c.position k)

/-- Whether a counter has not moved yet. -/
def Fresh (c : Counter) : Prop := c.marks = [] ∧ c.position = c.origin

end Counter

/-- Whether a counter has been in the given places, and each of them is at or below one of its candidates. -/
structure Covers (τ : SpaceId → Int32) (places : List Address) (c? : Option Counter) : Prop where
  known : ∀ c, c? = some c → c.origin ∈ places ∧ c.candidates ⊆ places
  covered : ∀ x ∈ places, ∃ c, c? = some c ∧ ∃ y ∈ c.candidates, x.height τ ≤ y.height τ

namespace Covers

variable {τ : SpaceId → Int32} {places : List Address} {c c' : Counter}

theorem nil (τ : SpaceId → Int32) : Covers τ [] none where
  known _ h := nomatch h
  covered _ h := nomatch h

theorem fresh (h : c.Fresh) : Covers τ [c.origin, c.position] (some c) := by
  have hposition : c.position ∈ c.candidates := List.mem_append_right _ List.mem_cons_self
  refine ⟨fun d hd => ?_, fun x hx => ⟨c, rfl, c.position, hposition, ?_⟩⟩
  · cases hd
    refine ⟨List.mem_cons_self, fun x hx => ?_⟩
    rw [Counter.candidates, h.1] at hx
    exact List.mem_cons_of_mem _ hx
  · rw [← h.2] at hx
    have heq : x = c.position := by simpa using hx
    rw [heq]

/-- A counter that climbs is still covered. -/
theorem climb (h : Covers τ places (some c)) (hc : c.Climbs τ c')
    (hfit : Address.WithinRange τ (places ++ [c'.origin, c'.position])) :
    Covers τ (places ++ [c'.origin, c'.position]) (some c') := by
  obtain ⟨horigin, hcandidates⟩ := h.known c rfl
  have hposition : c'.position ∈ c'.candidates := List.mem_append_right _ List.mem_cons_self
  have hplace : c'.position ∈ places ++ [c'.origin, c'.position] := by simp
  have hold : c.candidates ⊆ places ++ [c'.origin, c'.position] := fun x hx =>
    List.mem_append_left _ (hcandidates hx)
  -- What lay below an old candidate lies below a new one.
  have each : ∀ x ∈ c.candidates, ∃ y ∈ c'.candidates, x.height τ ≤ y.height τ := by
    intro x hx
    cases hc with
    | rise n hn _ hmarks hbytes =>
      rcases List.mem_append.mp hx with hmark | hx
      · exact ⟨x, List.mem_append_left _ (hmarks ▸ hmark), le_refl _⟩
      · rw [List.mem_singleton.mp hx]
        exact ⟨c'.position, hposition,
          Address.height_le_of_bytes (hfit _ hplace _ (hold (List.mem_append_right _ List.mem_cons_self)))
            hn hbytes⟩
    | leave a hτ _ hmarks =>
      obtain ⟨y, hy, hle⟩ := Counter.exists_mark hτ (hfit.subset hold) hx
      exact ⟨y, List.mem_append_left _ (hmarks ▸ hy), hle⟩
  refine ⟨fun d hd => ?_, fun x hx => ⟨c', rfl, ?_⟩⟩
  · cases hd
    refine ⟨by simp, fun x hx => ?_⟩
    rcases List.mem_append.mp hx with hx | hx
    · refine hold ?_
      cases hc with
      | rise n _ _ hmarks _ => exact List.mem_append_left _ (hmarks ▸ hx)
      | leave a _ _ hmarks => exact Counter.mem_candidates_of_mark (hmarks ▸ hx)
    · rw [List.mem_singleton.mp hx]
      exact hplace
  · have hbefore : ∀ x ∈ places, ∃ y ∈ c'.candidates, x.height τ ≤ y.height τ := by
      intro x hx
      obtain ⟨d, hd, y, hy, hle⟩ := h.covered x hx
      cases hd
      obtain ⟨z, hz, hyz⟩ := each y hy
      exact ⟨z, hz, hle.trans hyz⟩
    rcases List.mem_append.mp hx with hx | hx
    · exact hbefore x hx
    · rcases List.mem_cons.mp hx with rfl | hx
      · exact hbefore _ (hc.origin ▸ horigin)
      · rw [List.mem_singleton.mp hx]
        exact ⟨c'.position, hposition, le_refl _⟩

theorem congr {others : List Address} {c? : Option Counter} (h : Covers τ places c?)
    (hiff : ∀ x, x ∈ others ↔ x ∈ places) : Covers τ others c? where
  known c hc := by
    obtain ⟨horigin, hcandidates⟩ := h.known c hc
    exact ⟨(hiff _).mpr horigin, fun x hx => (hiff x).mpr (hcandidates hx)⟩
  covered x hx := h.covered x ((hiff x).mp hx)

/-- So is one that has climbed since it was new. -/
theorem climb_fresh (hfresh : c.Fresh) (hc : c.Climbs τ c')
    (hfit : Address.WithinRange τ [c'.origin, c'.position]) :
    Covers τ [c'.origin, c'.position] (some c') := by
  have hiff : ∀ x, x ∈ [c'.origin, c'.position] ↔
      x ∈ [c.origin, c.position] ++ [c'.origin, c'.position] := by
    intro x
    rw [hfresh.2, hc.origin]
    simp
  exact ((fresh hfresh).climb hc (hfit.subset fun x hx => (hiff x).mpr hx)).congr hiff

end Covers

/-! ## 3. Layouts -/

namespace Layout

variable {τ : SpaceId → Int32} {l l' l'' : Layout}

/-- Whether every counter has climbed at most once, since it was new if it is a further one. -/
structure Climbs (τ : SpaceId → Int32) (l l' : Layout) : Prop where
  kept : ∀ id c, l.counter? id = some c → ∃ c', l'.counter? id = some c' ∧ c.Climbs τ c'
  further : ∀ id c', l.counter? id = none → l'.counter? id = some c' →
    ∃ c : Counter, c.Fresh ∧ c.Climbs τ c'

/-- Whether nothing is changed in the counters, except that further ones may be added. -/
def Extends (l l' : Layout) : Prop :=
  ∃ more : List Counter, l'.counters = l.counters ++ more ∧ ∀ c ∈ more, c.Fresh

theorem Extends.of_counters (h : l'.counters = l.counters) : l.Extends l' :=
  ⟨[], by rw [h, List.append_nil], fun _ hc => nomatch hc⟩

theorem Extends.refl (l : Layout) : l.Extends l := .of_counters rfl

theorem Extends.trans (h : l.Extends l') (h' : l'.Extends l'') : l.Extends l'' := by
  obtain ⟨more, heq, hfresh⟩ := h
  obtain ⟨more', heq', hfresh'⟩ := h'
  refine ⟨more ++ more', by rw [heq', heq, List.append_assoc], fun c hc => ?_⟩
  rcases List.mem_append.mp hc with hc | hc
  · exact hfresh c hc
  · exact hfresh' c hc

theorem extends_createSection (l : Layout) (name? : Option Name) (kind : SectionKind) :
    l.Extends (l.createSection name? kind).2 :=
  ⟨_, rfl, fun c hc => by
    rw [List.mem_singleton.mp hc]
    exact ⟨rfl, rfl⟩⟩

theorem extends_ensureSection (l : Layout) : l.Extends l.ensureSection := by
  unfold ensureSection
  split
  · exact .refl l
  · exact l.extends_createSection none .executable

theorem extends_createCounter (l : Layout) (name : Name) : l.Extends (l.createCounter name).2 := by
  obtain ⟨-, heq⟩ | ⟨s, -, heq⟩ := l.createCounter_cases name <;> rw [heq]
  · exact l.extends_ensureSection
  · refine l.extends_ensureSection.trans ⟨_, rfl, fun c hc => ?_⟩
    rw [List.mem_singleton.mp hc]
    exact ⟨rfl, rfl⟩

theorem extends_resumeSection (l : Layout) (s : SectionId) : l.Extends (l.resumeSection s) := by
  unfold resumeSection
  split <;> exact .of_counters rfl

theorem extends_resumeCounter (l : Layout) (c : CounterId) : l.Extends (l.resumeCounter c) := by
  unfold resumeCounter
  split <;> exact .of_counters rfl

theorem counter?_modifyCurrent (l : Layout) (g : Counter → Counter) (id : CounterId) :
    (l.modifyCurrent g).counter? id =
      if l.current? = some id then (l.counter? id).map g else l.counter? id := by
  unfold modifyCurrent counter?
  cases hc : l.current? with
  | none => simp
  | some c =>
    dsimp only
    rw [List.getElem?_modify]
    by_cases h : c = id
    · subst h
      simp
    · have hindex : c.index ≠ id.index := fun heq => h (by cases c; cases id; simp_all)
      simp [h, hindex]

/-- A change of the counter in use, after further counters may have been added. -/
theorem climbs_modifyCurrent {g : Counter → Counter} (hl : l.Extends l')
    (heq : l''.counters = (l'.modifyCurrent g).counters)
    (hg : ∀ c, l'.current = some c → c.Climbs τ (g c)) : l.Climbs τ l'' := by
  obtain ⟨more, hcounters, hfresh⟩ := hl
  have hget : ∀ id, l''.counter? id =
      if l'.current? = some id then (l'.counter? id).map g else l'.counter? id := fun id => by
    rw [← counter?_modifyCurrent, counter?, counter?, heq]
  have hold : ∀ id c, l'.counter? id = some c → ∃ c', l''.counter? id = some c' ∧ c.Climbs τ c' := by
    intro id c hc
    rw [hget]
    split
    · rename_i hcurrent
      rw [hc]
      exact ⟨g c, rfl, hg c (by rw [current, hcurrent]; exact hc)⟩
    · exact ⟨c, hc, .refl c⟩
  refine ⟨fun id c hc => hold id c ?_, fun id c' hnone hc' => ?_⟩
  · rw [counter?, hcounters]
    exact List.getElem?_append_left (List.getElem?_eq_some_iff.mp hc).1 ▸ hc
  · have hexists : ∃ c, l'.counter? id = some c := by
      rw [hget] at hc'
      split at hc'
      · obtain ⟨c, hc, -⟩ := Option.map_eq_some_iff.mp hc'
        exact ⟨c, hc⟩
      · exact ⟨c', hc'⟩
    obtain ⟨c, hc⟩ := hexists
    obtain ⟨d, hd, hclimbs⟩ := hold id c hc
    rw [hc'] at hd
    cases hd
    refine ⟨c, hfresh c ?_, hclimbs⟩
    rw [counter?, hcounters, List.getElem?_append_right (List.getElem?_eq_none_iff.mp hnone)] at hc
    exact List.mem_of_getElem? hc

theorem Extends.climbs (h : l.Extends l') : l.Climbs τ l' := by
  refine climbs_modifyCurrent (g := id) h ?_ fun c _ => .refl c
  unfold modifyCurrent
  split
  · exact (List.modify_id _ _).symm
  · rfl

theorem climbs_reserve (hl : l.Extends l') {n : Int32} (hn : 0 ≤ n.toInt) : l.Climbs τ (l'.reserve n) :=
  climbs_modifyCurrent (hl.trans l'.extends_ensureSection) rfl fun c _ => c.climbs_advance hn

theorem climbs_passSpace (hl : l.Extends l') {kind : SpaceKind} {g : Alignment}
    (hk : 0 ≤ (τ (l'.passSpace kind g).1).toInt) : l.Climbs τ (l'.passSpace kind g).2 := by
  obtain ⟨id, hid⟩ := l'.exists_current_ensureSection
  rw [passSpace_eq l' kind g hid] at hk ⊢
  refine climbs_modifyCurrent (g := (·.pass ⟨l'.ensureSection.spaces.size⟩))
    (hl.trans l'.extends_ensureSection) ?_ fun c _ => c.climbs_pass hk
  unfold modifyCurrent
  dsimp only
  split <;> rfl

theorem spaces_moveTo (l : Layout) (place : Address) : (l.moveTo place).spaces = l.spaces :=
  (spaces_modifyCurrent _ _).1.trans l.spaces_ensureSection

theorem climbs_moveTo (hl : l.Extends l') {place : Address} (hτ : (l'.moveTo place).spaces.Fits τ) :
    l.Climbs τ (l'.moveTo place) := by
  refine climbs_modifyCurrent (hl.trans l'.extends_ensureSection) rfl fun c _ =>
    .leave l'.ensureSection.spaces ?_ (fields_mark c _).2.2 rfl
  rw [spaces_ensureSection, ← spaces_moveTo]
  exact hτ

theorem earlier_jump (l : Layout) (kind : SpaceKind) : l.spaces.Earlier (l.jump kind).2.spaces := by
  have hpass := earlier_passSpace (l.ensureSection.modifyCurrent (·.mark l.ensureSection.spaces)) kind .any
  rw [spaces_mark] at hpass
  exact hpass

theorem climbs_jump (hl : l.Extends l') {kind : SpaceKind} (hτ : (l'.jump kind).2.spaces.Fits τ) :
    l.Climbs τ (l'.jump kind).2 := by
  obtain ⟨id, hid⟩ := l'.exists_current_ensureSection
  have hspaces : l'.ensureSection.spaces.Fits τ := by
    rw [spaces_ensureSection]
    exact (l'.earlier_jump kind).fits hτ
  have hl := hl.trans l'.extends_ensureSection
  unfold jump
  dsimp only
  generalize l'.ensureSection = l₀ at hid hspaces hl
  have hcurrent : (l₀.modifyCurrent (·.mark l₀.spaces)).current? = some id :=
    (spaces_modifyCurrent _ _).2.trans hid
  have hsection := ensureSection_of_current? hcurrent
  rw [passSpace_eq _ kind .any (hsection.symm ▸ hcurrent), hsection]
  generalize (⟨(l₀.modifyCurrent (·.mark l₀.spaces)).spaces.size⟩ : SpaceId) = k
  refine climbs_modifyCurrent (g := fun c => (c.mark l₀.spaces).pass k) hl ?_ fun c _ =>
    .leave l₀.spaces hspaces (fields_mark c _).2.2 rfl
  simp only [modifyCurrent, hid]
  exact List.modify_modify_eq _ _ _ _

end Layout

end Assembler
