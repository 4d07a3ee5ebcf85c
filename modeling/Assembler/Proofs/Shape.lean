import Assembler.Proofs.Ownership
import Assembler.Proofs.Separation
/-!
The lengths that spaces get.

As long as the distances between places fit into 32 bits, a search for the highest place finds one that is not below
any candidate (`Address.extent_le_highest`). So a space gets a number of bytes that is not negative, unless it is a move
to a target, padding stays below its boundary, further counters start on theirs, and a move is in terms of spaces of its
counter (`Session.shaped_of_bounded`).
-/

namespace Assembler

open Assembly

/-! ## 1. Extents -/

namespace Address

variable {a : Spaces} {x y : Address} {places : List Address}

/-- The number of bytes to a place as an integer of any size, without the spaces that are open. -/
def extent (a : Spaces) (x : Address) : Int := x.offset.toInt + (a.substitute x.spaces).1

theorem bytes_eq_extent (ha : a.Acyclic) {τ : SpaceId → Int32} (hτ : a.Fits τ)
    (hzero : ∀ k, ¬ a.isResolved k → τ k = 0) (x : Address) : x.bytes τ = Int32.ofInt (x.extent a) := by
  -- Only open spaces are left, and these are taken to be empty.
  have hopen : (a.substitute x.spaces).2.value τ = 0 :=
    (Terms.value_congr fun k hk => hzero k ((normal_normalize ha x).isOpen k hk)).trans (Terms.value_zero _)
  calc x.bytes τ = (x.normalize a).bytes τ := (bytes_normalize hτ x).symm
    _ = Int32.ofInt (x.extent a) + (a.substitute x.spaces).2.value τ := rfl
    _ = Int32.ofInt (x.extent a) := by rw [hopen, Int32.add_zero]

/-- A known distance is the difference of the extents if that fits. -/
theorem measures_extent (ha : a.Acyclic) (hfit : FitsInt32 (y.extent a - x.extent a)) :
    Measures a (extent a) x y := by
  intro hnil
  obtain ⟨τ, hτ, hzero⟩ := Spaces.exists_fits ha fun _ => 0
  have hbytes : ((y - x).normalize a).offset = y.bytes τ - x.bytes τ := Length.bytes_between hnil hτ
  rw [hbytes, bytes_eq_extent ha hτ hzero, bytes_eq_extent ha hτ hzero, ← Int32.ofInt_sub]
  exact Int32.toInt_ofInt_of_le hfit.1 hfit.2

/-- Whether the distances that a search for the highest place takes fit into 32 bits. -/
def SearchFits (a : Spaces) : List Address → Prop
  | [] => True
  | first :: others => Compares a (fun x y => FitsInt32 (y.extent a - x.extent a)) (first, []) others

theorem searchFits_of_forall (h : ∀ x ∈ places, ∀ y ∈ places, FitsInt32 (y.extent a - x.extent a)) :
    SearchFits a places := by
  cases places with
  | nil => trivial
  | cons first others => exact compares_of_subset h List.mem_cons_self (List.subset_cons_self _ _)

/-- The highest of some candidates is not below any of them. -/
theorem extent_le_highest (ha : a.Acyclic) (hfit : SearchFits a places) (h : highest a places = .ok x) :
    ∀ y ∈ places, y.extent a ≤ x.extent a := by
  cases places with
  | nil => cases h
  | cons first others =>
    obtain ⟨hnil, rfl⟩ := highest_eq_ok.mp h
    exact le_foldl_highestStep (hfit.imp fun _ _ => measures_extent ha) hnil

end Address

/-! ## 2. Lengths in range -/

/-- Whether no address computation that decides a length leaves the range of 32 bits. Nothing is asked of storage,
padding and moves to targets. -/
def SpaceRule.InRange (a : Spaces) : SpaceRule → Prop
  | .storage _ | .padding _ _ _ | .jump _ _ _ _ => True
  | .jumpToHighest candidates position => ∀ highest, Address.highest a candidates = .ok highest →
    Address.SearchFits a candidates ∧ FitsInt32 (highest.extent a - position.extent a)
  | .counterStart candidates sectionStart alignment => ∀ highest last, Address.highest a candidates = .ok highest →
    (Length.between a highest sectionStart).settled = .resolved last →
    let last := if last < 0 then 0 else last
    FitsInt32 (last.toInt + alignment.gap last.toInt)

def Task.InRange (a : Spaces) : Task → Prop
  | .space _ rule => rule.InRange a
  | _ => True

/-- Whether the places that decide a length are less than 2^31 bytes from the start of the section, the padding behind
them included. -/
def SpaceRule.Roomy (a : Spaces) : SpaceRule → Prop
  | .storage _ | .padding _ _ _ | .jump _ _ _ _ => True
  | .jumpToHighest candidates _ => ∀ x ∈ candidates, 0 ≤ x.extent a ∧ x.extent a < 2 ^ 31
  | .counterStart candidates sectionStart alignment => ∀ x ∈ candidates,
    0 ≤ x.extent a - sectionStart.extent a ∧
      x.extent a - sectionStart.extent a + (max alignment.boundary 1 : Nat) ≤ 2 ^ 31

/-- Where there is room, nothing leaves the range. -/
theorem SpaceRule.Roomy.inRange {a : Spaces} {rule : SpaceRule} (h : rule.Roomy a) (ha : a.Acyclic)
    (hscope : rule.Scoped a) : rule.InRange a := by
  cases rule with
  | storage | padding | jump => trivial
  | jumpToHighest candidates position =>
    intro highest hok
    -- Places less than 2^31 bytes behind the same start are less than 2^31 bytes apart.
    have hfit : ∀ x ∈ candidates, ∀ y ∈ candidates, FitsInt32 (y.extent a - x.extent a) := by
      intro x hx y hy
      have hfirst := h x hx
      have hlast := h y hy
      exact ⟨by omega, by omega⟩
    exact ⟨Address.searchFits_of_forall hfit, hfit _ hscope.1 _ (Address.mem_of_highest hok)⟩
  | counterStart candidates sectionStart alignment =>
    intro highest last hok hlast
    obtain ⟨hlow, hhigh⟩ := h highest (Address.mem_of_highest hok)
    obtain ⟨hnil, rfl⟩ := Length.settled_eq_resolved hlast
    have hexact : (Length.between a highest sectionStart).bytes.toInt = highest.extent a - sectionStart.extent a :=
      Address.measures_extent ha ⟨by omega, by omega⟩ hnil
    have hnonneg : ¬ (Length.between a highest sectionStart).bytes < 0 := by
      rw [Int32.lt_iff_toInt_lt, hexact]
      exact Int.not_lt.mpr hlow
    have hgap := alignment.gap_nonneg (highest.extent a - sectionStart.extent a)
    have hlt := alignment.gap_lt (highest.extent a - sectionStart.extent a)
    dsimp only
    rw [if_neg hnonneg, hexact]
    exact ⟨by omega, by omega⟩

/-- What the length of a space for a reason is like, when further counters start on multiples of `boundary`. -/
structure Length.Shaped (boundary : Nat) (kind : SpaceKind) (l : Length) : Prop where
  solid : kind ≠ .jump → l.Solid
  multiple : kind = .counterStart → ((Alignment.multiplesOf boundary).boundary : Int) ∣ l.bytes.toInt

theorem Length.shaped_zero (boundary : Nat) (kind : SpaceKind) : Length.zero.Shaped boundary kind :=
  ⟨fun _ => ⟨rfl, le_refl _⟩, fun _ => Int.dvd_zero _⟩

theorem Length.value?_settled {l : Length} {n : Int32} : l.settled.value? = some n ↔ l.settled = .resolved n := by
  unfold settled
  split
  · exact ⟨fun h => by cases h; rfl, fun h => by cases h; rfl⟩
  · exact ⟨fun h => (nomatch h), fun h => (nomatch h)⟩

/-- Padding is less than the boundary. -/
theorem SpaceRule.padding_lt (position reference : Address) {alignment : Alignment} (ha : alignment.Dyadic)
    {s : Assembly} {k : SpaceId} {f : Frame} {length : Length}
    (h : (s.attemptSpace k (.padding position reference alignment) f).value? = some length) :
    length.spaces = [] ∧ length.bytes.toInt < alignment.boundary := by
  obtain ⟨gap, -, rfl⟩ := Evaluation.exists_of_value?_map h
  exact ⟨rfl, ha.padding_lt _⟩

/-- The next multiple of a boundary, if it fits. -/
theorem Alignment.nonneg_dvd_add_padding {boundary : Nat} {last : Int32} (hlast : 0 ≤ last.toInt)
    (hfit : FitsInt32 (last.toInt + (multiplesOf boundary).gap last.toInt)) :
    let start := last + (multiplesOf boundary).padding last.toInt
    0 ≤ start.toInt ∧ ((multiplesOf boundary).boundary : Int) ∣ start.toInt := by
  intro start
  have hexact : start.toInt = last.toInt + (multiplesOf boundary).gap last.toInt :=
    (multiplesOf boundary).toInt_add_padding hfit
  have hnonneg := (multiplesOf boundary).gap_nonneg last.toInt
  have hmod := (multiplesOf boundary).emod_add_gap last.toInt
  rw [Nat.max_eq_left (show 1 ≤ (multiplesOf boundary).boundary from Nat.le_max_right _ _)] at hmod
  rw [hexact]
  exact ⟨by omega, Int.dvd_of_emod_eq_zero (hmod.trans (Int.zero_emod _))⟩

namespace Assembly

variable {s : Assembly} {job : Job} {k : SpaceId} {rule : SpaceRule} {f : Frame} {length : Length} {boundary : Nat}

/-- A move to the highest place is a number of bytes that is not negative, as the position is a candidate. -/
theorem nonneg_of_jumpToHighest (ha : s.layout.spaces.Acyclic) {candidates : List Address} {position : Address}
    (hposition : position ∈ candidates)
    (hrange : (SpaceRule.jumpToHighest candidates position).InRange s.layout.spaces)
    (h : (s.attemptSpace k (.jumpToHighest candidates position) f).value? = some length)
    (hnil : length.spaces = []) : 0 ≤ length.bytes.toInt := by
  obtain ⟨highest, hhighest, rfl⟩ := Evaluation.exists_of_value?_map h
  have hok := Evaluation.value?_ofExcept.mp hhighest
  obtain ⟨hsearch, hfit⟩ := hrange highest hok
  have hle := Address.extent_le_highest ha hsearch hok position hposition
  have hbytes : (Length.between s.layout.spaces highest position).bytes.toInt =
      highest.extent s.layout.spaces - position.extent s.layout.spaces := Address.measures_extent ha hfit hnil
  omega

/-- A further counter starts on its boundary. -/
theorem shaped_counterStart {candidates : List Address} {sectionStart : Address}
    (hrange : (SpaceRule.counterStart candidates sectionStart (.multiplesOf boundary)).InRange s.layout.spaces)
    (h : (s.attemptSpace k (.counterStart candidates sectionStart (.multiplesOf boundary)) f).value? = some length) :
    length.Shaped boundary .counterStart := by
  rcases Evaluation.value?_andThen h with rfl | ⟨highest, hhighest, hlength⟩
  · exact Length.shaped_zero _ _
  · obtain ⟨last, hlast, rfl⟩ := Evaluation.exists_of_value?_map hlength
    have hok : Address.highest s.layout.spaces candidates = .ok highest :=
      Evaluation.value?_ofExcept.mp (hhighest ▸ rfl)
    have hfit := hrange highest last hok (Length.value?_settled.mp hlast)
    -- An end before the start of the section counts as that start.
    have hnonneg : 0 ≤ (if last < 0 then 0 else last).toInt := by
      split
      · exact le_refl _
      · exact Int32.le_iff_toInt_le.mp (Int32.not_lt.mp ‹_›)
    obtain ⟨hstart, hdvd⟩ := Alignment.nonneg_dvd_add_padding hnonneg hfit
    exact ⟨fun _ => ⟨rfl, hstart⟩, fun _ => hdvd⟩

/-- What an attempt gives to a space has the shape that the kind of the space asks for. -/
theorem shaped_attemptSpace (hs : s.WellFormed) (hf : f.Scoped s.layout.spaces)
    (hscope : (Task.space k rule).Scoped s.layout.spaces)
    (hproper : rule.Proper (.multiplesOf boundary) s.layout.spaces k) (hrange : rule.InRange s.layout.spaces)
    (h : (s.attemptSpace k rule f).value? = some length) : length.Shaped boundary rule.kind := by
  cases rule with
  | storage e => exact ⟨fun _ => SpaceRule.solid_storage e s k f length h, nofun⟩
  | padding position reference alignment =>
    exact ⟨fun _ => SpaceRule.solid_padding position reference hproper s k f length h, nofun⟩
  | jump => exact ⟨fun hne => absurd rfl hne, nofun⟩
  | jumpToHighest candidates position =>
    have hsound := sound_attemptSpace hs.inScope hs.acyclic hf hscope.1 hscope.2 h
    have hnil : length.spaces = [] := hsound.plain fun hkind => nomatch hscope.1.symm.trans hkind
    exact ⟨fun _ => ⟨hnil, nonneg_of_jumpToHighest hs.acyclic hscope.2.1 hrange h hnil⟩, nofun⟩
  | counterStart candidates sectionStart alignment =>
    obtain rfl : alignment = .multiplesOf boundary := hproper
    exact shaped_counterStart hrange h

theorem Gives.shaped (h : s.Gives job k length) (hs : s.WellFormed) (hscope : job.Scoped s.layout.spaces)
    (hproper : job.task.Proper (.multiplesOf boundary) s.layout.spaces)
    (hrange : job.task.InRange s.layout.spaces) :
    ∃ rule, job.task = .space k rule ∧ s.layout.spaces.kind? k = some rule.kind ∧
      length.Shaped boundary rule.kind := by
  obtain ⟨rule, htask, hval⟩ := h
  have ht := hscope.task
  rw [htask] at ht hproper hrange
  refine ⟨rule, htask, ht.1, ?_⟩
  -- A job that fails leaves no bytes, which suits every kind.
  rcases hval with hval | rfl
  · exact shaped_attemptSpace hs hscope.frame ht hproper hrange hval
  · exact Length.shaped_zero _ _

end Assembly

/-! ## 3. Every moment -/

/-- A step of a session in which the job that is done, if there is one, computes no address out of range. -/
structure Bounded (m m' : Moment) : Prop where
  course : Course m m'
  inRange : ∀ x, m.hand = x :: m'.hand → x.2.task.InRange m.state.layout.spaces

namespace Moment

variable {m m' : Moment} {settings : Settings} {k : SpaceId} {length : Length}

/-- Whether a job at hand that is done computes an address out of range. -/
def LeavesRange (m m' : Moment) : Prop := ∃ x, m.hand = x :: m'.hand ∧ ¬ x.2.task.InRange m.state.layout.spaces

/-- Whether there has been a job to pad with a space to a boundary. -/
def PaddedTo (settings : Settings) (m : Moment) (k : SpaceId) (alignment : Alignment) : Prop :=
  ∃ (before : Moment) (position reference : Address) (f : Frame), Run Course (.start settings) before ∧
    Run Course before m ∧ before.Carries ⟨.space k (.padding position reference alignment), f⟩

/-- What the lengths of spaces are like at a moment. -/
structure Shaped (settings : Settings) (m : Moment) : Prop where
  lengths : ∀ k kind length, m.state.layout.spaces.kind? k = some kind →
    m.state.layout.spaces.length? k = some length → length.Shaped settings.counterAlignment kind
  padding : ∀ k length, m.state.layout.spaces.kind? k = some .alignment →
    m.state.layout.spaces.length? k = some length →
    (∃ alignment, PaddedTo settings m k alignment) ∧
      ∀ alignment, PaddedTo settings m k alignment → length.bytes.toInt < alignment.boundary
  jumps : ∀ k length, m.state.layout.spaces.kind? k = some .jump → m.state.layout.spaces.length? k = some length →
    ∀ t ∈ length.spaces.map Prod.fst, m.state.layout.spaces.counter? t = m.state.layout.spaces.counter? k

theorem valid_of_courses (h : Run Course (.start settings) m) : m.Valid :=
  (valid_start settings).turns ((valid_start settings).turns_of_courses h)

theorem proper_of_courses (h : Run Course (.start settings) m) : m.Proper settings := by
  induction h with
  | refl => exact proper_start settings
  | tail hrun hcourse ih => exact ih.course (valid_of_courses hrun) hcourse

theorem Valid.earlier_of_courses (hv : m.Valid) (h : Run Course m m') :
    m.state.layout.spaces.Earlier m'.state.layout.spaces := (Turns.earlier (hv.turns_of_courses h)).spaces

theorem courses_of_bounded (h : Run Bounded m m') : Run Course m m' := h.imp fun _ _ => Bounded.course

/-- A step that does a job where there is room computes no address out of range. -/
theorem Valid.bounded_of_roomy (hv : m.Valid) (h : Course m m')
    (hroom : ∀ x k rule, m.hand = x :: m'.hand → x.2.task = .space k rule → rule.Roomy m.state.layout.spaces) :
    Bounded m m' := by
  refine ⟨h, fun x hx => ?_⟩
  have hscope := (hv.held x (hx ▸ List.mem_cons_self)).inScope.task
  cases htask : x.2.task with
  | space k rule =>
    rw [htask] at hscope
    exact (hroom x k rule hx htask).inRange hv.wellFormed.acyclic hscope.2
  | value | length | scale | integer | check => trivial

/-- A session computes no address out of range, or there is a first step that does. -/
theorem bounded_or_leavesRange (h : Run Course m m') :
    Run Bounded m m' ∨ ∃ b c, Run Bounded m b ∧ Course b c ∧ b.LeavesRange c ∧ Run Course c m' := by
  induction h with
  | refl => exact .inl (.refl _)
  | @tail b c hrun hcourse ih =>
    rcases ih with hbounded | ⟨d, e, hd, hde, hleaves, he⟩
    · by_cases hrange : b.LeavesRange c
      · exact .inr ⟨b, c, hbounded, hcourse, hrange, .refl c⟩
      · refine .inl (.tail hbounded ⟨hcourse, fun x hx => ?_⟩)
        exact Classical.byContradiction fun hout => hrange ⟨x, hx, hout⟩
    · exact .inr ⟨d, e, hd, hde, hleaves, .tail he hcourse⟩

/-- Every length was given when a job for the space was done. -/
theorem exists_gives (h : Run Bounded (.start settings) m) (hlength : m.state.layout.spaces.length? k = some length) :
    ∃ before x, Run Bounded (.start settings) before ∧ Run Bounded before m ∧ x ∈ before.hand ∧
      x.2.task.InRange before.state.layout.spaces ∧ before.state.Gives x.2 k length := by
  induction h with
  | refl => cases hlength
  | @tail b c hrun hstep ih =>
    rcases (valid_of_courses (courses_of_bounded hrun)).gives hstep.course hlength with hold | ⟨x, hx, hgives⟩
    · obtain ⟨before, x, hbefore, hb, hx, hrange, hgives⟩ := ih hold
      exact ⟨before, x, hbefore, .tail hb hstep, hx, hrange, hgives⟩
    · exact ⟨b, x, hrun, .single hstep, hx ▸ List.mem_cons_self, hstep.inRange x hx, hgives⟩

/-- So it has the shape that the kind of the space asks for, and padding has been asked for by its job. -/
theorem shaped_length (h : Run Bounded (.start settings) m) {kind : SpaceKind}
    (hkind : m.state.layout.spaces.kind? k = some kind)
    (hlength : m.state.layout.spaces.length? k = some length) :
    length.Shaped settings.counterAlignment kind ∧
      (kind = .alignment → ∃ alignment, PaddedTo settings m k alignment) := by
  obtain ⟨before, x, hbefore, hafter, hx, hrange, hgives⟩ := exists_gives h hlength
  have hcourses := courses_of_bounded hbefore
  have hv := valid_of_courses hcourses
  have hcarries : before.Carries x.2 := .inl ⟨x, hx, rfl⟩
  obtain ⟨rule, htask, hrule, hshaped⟩ := hgives.shaped hv.wellFormed (hv.held x hx).inScope
    ((proper_of_courses hcourses).jobs x.2 hcarries) hrange
  -- The kind of a space never changes, so it is the one of the rule.
  obtain rfl : rule.kind = kind := Option.some.inj
    (((hv.earlier_of_courses (courses_of_bounded hafter)).kind? hrule).symm.trans hkind)
  refine ⟨hshaped, fun halign => ?_⟩
  obtain ⟨_, ⟨task, f⟩⟩ := x
  cases rule with
  | padding position reference alignment =>
    obtain rfl : task = _ := htask
    exact ⟨alignment, before, position, reference, f, hcourses, courses_of_bounded hafter, hcarries⟩
  | storage | jump | jumpToHighest | counterStart => cases halign

/-- Padding is less than the boundary that it has been asked for. -/
theorem PaddedTo.bytes_lt {alignment : Alignment} (h : PaddedTo settings m k alignment)
    (hlength : m.state.layout.spaces.length? k = some length) : length.bytes.toInt < alignment.boundary := by
  obtain ⟨before, position, reference, f, hbefore, hafter, hcarries⟩ := h
  have hv := valid_of_courses hbefore
  have hdyadic : alignment.Dyadic := (proper_of_courses hbefore).jobs _ hcarries
  have hzero : Length.zero.bytes.toInt < alignment.boundary := Int.natCast_pos.mpr hdyadic.pos
  -- From then on the space has the length that this job gives it, or none.
  exact hv.length_turns (P := fun l => l.bytes.toInt < alignment.boundary)
    (fun s _ h => SpaceRule.padding_lt position reference hdyadic h) hzero (hv.turns_of_courses hafter) hcarries hlength

theorem shaped_of_run (h : Run Bounded (.start settings) m) : m.Shaped settings where
  lengths _ _ _ hkind hlength := (shaped_length h hkind hlength).1
  padding _ _ hkind hlength := ⟨(shaped_length h hkind hlength).2 rfl, fun _ hpadded => hpadded.bytes_lt hlength⟩
  jumps k length _ hlength := (proper_of_courses (courses_of_bounded h)).lengths k length hlength

end Moment

/-! ## 4. Sessions -/

namespace Session

/-- In a session that computes no address out of range the lengths of spaces have their shape at every moment: between
operations, within a cascade and while the assembly is being completed. -/
theorem shaped_of_bounded (settings : Settings) :
    (∀ operations, Run Course (.start settings) ⟨stateAfter settings operations, [], .reading⟩) ∧
    (∀ s t phase sweeps, Run Course (.start settings) ⟨s, [], phase⟩ → s.advance? sweeps = some t →
      Run Course (.start settings) ⟨t, [], phase⟩) ∧
    (∀ m, Run Course (.start settings) m → Run Bounded (.start settings) m ∨
      ∃ b c, Run Bounded (.start settings) b ∧ Course b c ∧ b.LeavesRange c ∧ Run Course c m) ∧
    ∀ m, Run Bounded (.start settings) m → m.Shaped settings :=
  ⟨courses_stateAfter settings, fun _ _ _ _ h ht => h.trans (courses_of_cascade (run_advance? forall_mem_nil ht)),
    fun _ => Moment.bounded_or_leavesRange, fun _ => Moment.shaped_of_run⟩

/-! ### A counter behind a byte -/

namespace Behind

open Halfword (afterByte)

def symbol : Symbol := Scaled.place "T" newCounter.layout.origin .counterStart

def job : Job := Layout.Placement.job ⟨⟨0⟩, ⟨1⟩, .start ⟨0⟩, [(Address.start ⟨0⟩).addOffset 1]⟩ (.multiplesOf 8)

theorem progress_enter : Progress ⟨newCounter, [], .reading⟩ ⟨inCounter, [], .reading⟩ := by
  have hcreate : newCounter.symbols.create? symbol = some inCounter.symbols := rfl
  have hwake : (Assembly.provided symbol).foldl Assembly.wake inCounter = inCounter :=
    Assembly.foldl_wake_of_nil (by decide +kernel)
  have horigin : newCounter.layout.origin.LiesIn newCounter.layout.spaces := by
    unfold Address.LiesIn Spaces.Holds
    decide +kernel
  have howed : symbol.owed = [] := by decide +kernel
  have henter : Progress ⟨newCounter, [], .reading⟩
      ⟨(Assembly.provided symbol).foldl Assembly.wake inCounter, [], .reading⟩ :=
    @Progress.enter newCounter [] symbol inCounter.symbols [] hcreate (fun _ hv => by cases hv; exact horigin)
      (List.forall_mem_nil _) (howed ▸ .refl _) (howed ▸ List.forall_mem_nil _)
  rw [hwake] at henter
  exact henter

theorem settle_job : inCounter.settle none job = placed :=
  Assembly.settle_of_resolved (d := .space ⟨0⟩ ⟨8, []⟩) none (by decide +kernel) rfl rfl (by decide +kernel)

/-- The start of the further counter is computed in range. -/
theorem bounded_placed : Run Bounded (.start {}) ⟨placed, [], .placing⟩ := by
  have idle : ∀ {m m' : Moment}, m.hand = [] → Course m m' → Bounded m m' := fun hnil h =>
    ⟨h, fun x hx => nomatch (hnil.symm.trans hx)⟩
  have hstored : Run Bounded (.start {}) ⟨afterByte, [], .reading⟩ := .single (idle rfl (.change (.reserve 1)))
  have hcreated := hstored.tail (idle rfl (.change (.createCounter (.ofString "T"))))
  have hentered := hcreated.tail (idle rfl (.still progress_enter rfl))
  have hplacing : Course ⟨inCounter, [], .reading⟩ ⟨inCounter, [(none, job)], .placing⟩ := by
    have hplace : Ending ⟨inCounter, [], .reading⟩ _ := .place rfl
    rw [placements_inCounter] at hplace
    exact .complete (.inr hplace)
  have hplaced := hentered.tail (idle rfl hplacing)
  have hsettle : Course ⟨inCounter, [(none, job)], .placing⟩ ⟨placed, [], .placing⟩ := by
    have hstep : Cascade ⟨inCounter, [(none, job)], .placing⟩ _ := .settle
    rw [settle_job] at hstep
    exact .complete (.inl hstep)
  refine hplaced.tail ((Moment.valid_of_courses (Moment.courses_of_bounded hplaced)).bounded_of_roomy hsettle ?_)
  rintro x k rule hx htask
  obtain rfl : (none, job) = x := (List.cons.inj hx).1
  cases htask
  show ∀ x ∈ [(Address.start ⟨0⟩).addOffset 1], _
  decide +kernel

end Behind

/-- After one byte a further counter starts on the next doubleword, and nothing has left the range on the way there. -/
theorem shaped_of_bounded_byte :
    Run Bounded (.start {}) ⟨Behind.placed, [], .placing⟩ ∧ Moment.Shaped {} ⟨Behind.placed, [], .placing⟩ ∧
      Behind.placed.layout.spaces.kind? ⟨0⟩ = some .counterStart ∧
      Behind.placed.layout.spaces.length? ⟨0⟩ = some ⟨8, []⟩ :=
  ⟨Behind.bounded_placed, (shaped_of_bounded {}).2.2.2 _ Behind.bounded_placed, rfl, rfl⟩

end Session

end Assembler
