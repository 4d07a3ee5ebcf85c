import Assembler.Proofs.Advance
import Assembler.Proofs.Expansion
import Assembler.Proofs.Inventory
/-!
The highest place of a counter.

A counter advances, passes spaces and is moved, while spaces get their lengths in any order (`Layout.Travels`). Once
the lengths of all its spaces are known, the search among its candidates ends with a place, and no place that the
counter has ever had lies above that one (`Layout.highest_of_travels`). When the search cannot end yet, it waits for
open spaces, at least one, each of them once and in the order of their numbers.
-/

namespace Assembler

/-! ## 1. The search for the highest place -/

theorem SpaceId.pairwise_insert (s : SpaceId) {list : List SpaceId}
    (h : list.Pairwise fun s t => s.index < t.index) : (s.insert list).Pairwise fun s t => s.index < t.index := by
  induction list with
  | nil => exact List.pairwise_singleton _ _
  | cons t rest ih =>
    obtain ⟨hfirst, hrest⟩ := List.pairwise_cons.mp h
    unfold SpaceId.insert
    split
    · exact h
    rename_i hne
    split
    · rename_i hprecedes
      have hlt : s.index < t.index := of_decide_eq_true hprecedes
      refine List.pairwise_cons.mpr ⟨fun u hu => ?_, h⟩
      rcases List.mem_cons.mp hu with rfl | hu
      · exact hlt
      · exact Nat.lt_trans hlt (hfirst u hu)
    · rename_i hnot
      have hle : ¬ s.index < t.index := fun hlt => hnot (decide_eq_true hlt)
      have hindex : s.index ≠ t.index := fun heq => hne (by cases s; cases t; simp_all)
      refine List.pairwise_cons.mpr ⟨fun u hu => ?_, ih hrest⟩
      rcases SpaceId.mem_insert.mp hu with rfl | hu
      · omega
      · exact hfirst u hu

namespace Address

variable {a b : Spaces} {τ : SpaceId → Int32} {x y : Address} {candidates others : List Address}

theorem pairwise_highestStep {state : Address × List SpaceId} (c : Address)
    (h : state.2.Pairwise fun s t => s.index < t.index) :
    (highestStep a state c).2.Pairwise fun s t => s.index < t.index := by
  simp only [highestStep]
  split
  · exact h
  · generalize ((c - state.1).normalize a).spaces = ts
    generalize state.2 = list at h
    induction ts generalizing list with
    | nil => exact h
    | cons t rest ih => exact ih _ (t.1.pairwise_insert h)

theorem pairwise_foldl_highestStep {state : Address × List SpaceId}
    (h : state.2.Pairwise fun s t => s.index < t.index) :
    (others.foldl (highestStep a) state).2.Pairwise fun s t => s.index < t.index := by
  induction others generalizing state with
  | nil => exact h
  | cons c rest ih => exact ih (pairwise_highestStep c h)

/-- What the search waits for when it cannot end. -/
theorem waiting_of_highest (ha : a.Acyclic) (hne : candidates ≠ []) {waiting : List SpaceId}
    (h : highest a candidates = .error waiting) : waiting ≠ [] ∧
      waiting.Pairwise (fun s t => s.index < t.index) ∧ ∀ s ∈ waiting, ¬ a.isResolved s := by
  have hopen := not_isResolved_of_highest_error ha h
  cases candidates with
  | nil => exact absurd rfl hne
  | cons first others =>
    obtain ⟨hsome, rfl⟩ := highest_eq_error.mp h
    exact ⟨hsome, pairwise_foldl_highestStep .nil, hopen⟩

theorem foldl_highestStep_eq_nil {places : List Address}
    (h : ∀ x ∈ places, ∀ y ∈ places, ((x - y).normalize a).spaces = []) {state : Address × List SpaceId}
    (hstate : state.1 ∈ places) (hothers : others ⊆ places) (hnil : state.2 = []) :
    (others.foldl (highestStep a) state).2 = [] := by
  induction others generalizing state with
  | nil => exact hnil
  | cons c rest ih =>
    have hc := hothers List.mem_cons_self
    -- The distance to the highest place so far is known, so nothing is added to what the search waits for.
    have hgap : ((c - state.1).normalize a).spaces.isEmpty := List.isEmpty_iff.mpr (h c hc _ hstate)
    rw [List.foldl_cons, highestStep, if_pos hgap]
    refine ih ?_ (fun y hy => hothers (List.mem_cons_of_mem _ hy)) hnil
    dsimp only
    split
    · exact hc
    · exact hstate

/-- Between candidates whose distances are known the search does not have to wait. -/
theorem exists_highest (hne : candidates ≠ [])
    (h : ∀ x ∈ candidates, ∀ y ∈ candidates, ((x - y).normalize a).spaces = []) :
    ∃ x, highest a candidates = .ok x := by
  cases candidates with
  | nil => exact absurd rfl hne
  | cons first others =>
    exact ⟨_, highest_eq_ok.mpr
      ⟨foldl_highestStep_eq_nil h List.mem_cons_self (List.subset_cons_self _ _) rfl, rfl⟩⟩

end Address

/-! ## 2. Places of one counter -/

namespace Spaces

variable {a b : Spaces} {τ υ : SpaceId → Int32} {id : CounterId} {k : SpaceId}

/-- The counter that a space is passed by, if it exists. -/
def counter? (a : Spaces) (k : SpaceId) : Option CounterId := (a.get? k).map (·.counter)

theorem Earlier.counter? (h : a.Earlier b) (hk : a.counter? k = some id) : b.counter? k = some id := by
  obtain ⟨space, hspace, rfl⟩ := Option.map_eq_some_iff.mp hk
  obtain ⟨length?, hlater, -⟩ := h k space hspace
  exact Option.map_eq_some_iff.mpr ⟨_, hlater, rfl⟩

theorem counter?_create (a : Spaces) (kind : SpaceKind) (id : CounterId) (g : Alignment) :
    (a.create kind id g).2.counter? ⟨a.size⟩ = some id := by
  rw [counter?, get?_create, if_pos rfl]
  rfl

theorem not_isResolved_create (a : Spaces) (kind : SpaceKind) (id : CounterId) (g : Alignment) :
    ¬ (a.create kind id g).2.isResolved ⟨a.size⟩ := by
  rw [isResolved, length?, get?_create, if_pos rfl]
  exact Bool.false_ne_true

/-- The number of bytes of a space, if that is known in full. -/
def bytes? (a : Spaces) (k : SpaceId) : Option Int32 :=
  let (bytes, rest) := a.substitute [(k, 1)]
  if rest.isEmpty then some (Int32.ofInt bytes) else none

theorem eq_of_bytes? (hτ : a.Fits τ) {n : Int32} (h : a.bytes? k = some n) : τ k = n := by
  have hvalue := value_substitute hτ [(k, 1)]
  simp only [bytes?] at h
  split at h
  · rename_i hempty
    cases h
    rw [List.isEmpty_iff.mp hempty] at hvalue
    simpa [Terms.value] using hvalue.symm
  · cases h

/-- Whether storage and padding of a counter go forward when space `s` has length `τ s`. -/
def Forward (a : Spaces) (id : CounterId) (τ : SpaceId → Int32) : Prop :=
  ∀ k, a.counter? k = some id → a.kind? k = some .storage ∨ a.kind? k = some .alignment → 0 ≤ (τ k).toInt

theorem Forward.earlier (h : b.Forward id τ) (hab : a.Earlier b) : a.Forward id τ :=
  fun k hk hkind => h k (hab.counter? hk) (hkind.imp hab.kind? hab.kind?)

end Spaces

namespace Address

variable {a b : Spaces} {τ : SpaceId → Int32} {id : CounterId} {x : Address}

theorem Normal.openSpaces_eq (ha : a.Acyclic) (hx : x.Normal a) : x.openSpaces a = x.spaces.map Prod.fst :=
  congrArg (fun y : Address => y.spaces.map Prod.fst) (hx.normalize_eq ha)

/-- Whether an address is a place in a section behind spaces that a given counter passes. -/
structure InCounter (a : Spaces) (s : SectionId) (id : CounterId) (x : Address) : Prop where
  bases : x.bases = [(s, 1)]
  spaces : ∀ k ∈ x.openSpaces a, a.counter? k = some id

theorem inCounter_start (ha : a.Acyclic) (s : SectionId) (id : CounterId) : (start s).InCounter a s id where
  bases := rfl
  spaces k hk := by
    have hnormal : (start s).Normal a := ⟨.nil, fun _ ht => nomatch ht⟩
    rw [hnormal.openSpaces_eq ha] at hk
    cases hk

theorem inCounter_start_addSpace (ha : a.Acyclic) (s : SectionId) {k : SpaceId} (hk : a.counter? k = some id)
    (hopen : ¬ a.isResolved k) : ((start s).addSpace k 1).InCounter a s id where
  bases := rfl
  spaces j hj := by
    have hone : (1 : Int32) ≠ 0 := by decide
    have hnormal : ((start s).addSpace k 1).Normal a :=
      ⟨⟨List.pairwise_singleton _ _, List.forall_mem_singleton.mpr hone⟩, List.forall_mem_singleton.mpr hopen⟩
    rw [hnormal.openSpaces_eq ha] at hj
    rw [List.mem_singleton.mp hj]
    exact hk

/-- Whether the number of bytes of an address depends on no spaces but those of a counter. -/
def DependsOn (a : Spaces) (id : CounterId) (x : Address) : Prop :=
  ∀ τ υ, a.Fits τ → a.Fits υ → (∀ k, a.counter? k = some id → τ k = υ k) → x.bytes τ = x.bytes υ

/-- As the normal form has the same bytes, the open spaces are all that matters. -/
theorem dependsOn_of_openSpaces (h : ∀ k ∈ x.openSpaces a, a.counter? k = some id) : x.DependsOn a id := by
  intro τ υ hτ hυ hsame
  have hspaces : (x.normalize a).spaces.value τ = (x.normalize a).spaces.value υ :=
    Terms.value_congr fun k hk => hsame k (h k hk)
  rw [← bytes_normalize hτ, ← bytes_normalize hυ, bytes, bytes, hspaces]

theorem InCounter.dependsOn {s : SectionId} (h : x.InCounter a s id) : x.DependsOn a id :=
  dependsOn_of_openSpaces h.spaces

theorem DependsOn.later (h : x.DependsOn a id) (hab : a.Earlier b) : x.DependsOn b id :=
  fun τ υ hτ hυ hsame => h τ υ (hab.fits hτ) (hab.fits hυ) fun k hk => hsame k (hab.counter? hk)

theorem DependsOn.addOffset (h : x.DependsOn a id) (n : Int32) : (x.addOffset n).DependsOn a id := by
  intro τ υ hτ hυ hsame
  rw [bytes_addOffset, bytes_addOffset, h τ υ hτ hυ hsame]

theorem DependsOn.addSpace (h : x.DependsOn a id) {k : SpaceId} (hk : a.counter? k = some id) :
    (x.addSpace k 1).DependsOn a id := by
  intro τ υ hτ hυ hsame
  rw [bytes_addSpace, bytes_addSpace, h τ υ hτ hυ hsame, hsame k hk]

/-- When the lengths of all spaces of its counter are known, a place is. -/
theorem DependsOn.spaces_eq_nil (h : x.DependsOn a id) (ha : a.Acyclic)
    (hknown : ∀ k, a.counter? k = some id → ∃ n, a.bytes? k = some n) : (x.normalize a).spaces = [] := by
  obtain ⟨υ, hυ, -⟩ := Spaces.exists_fits ha fun _ => 0
  refine spaces_normalize_eq_nil ha fun τ hτ => h τ υ hτ hυ fun k hk => ?_
  obtain ⟨n, hn⟩ := hknown k hk
  rw [Spaces.eq_of_bytes? hτ hn, Spaces.eq_of_bytes? hυ hn]

end Address

theorem Counter.candidates_ne_nil (c : Counter) : c.candidates ≠ [] :=
  List.append_ne_nil_of_right_ne_nil _ (List.cons_ne_nil _ _)

/-! ## 3. What a counter does -/

/-- What is done to the counter in use, and to the spaces of a layout. -/
inductive Motion
  | reserve (n : Int32)
  | align (alignment : Alignment)
  | pass (kind : SpaceKind) (guarantee : Alignment)
  | moveTo (place : Address)
  | jump (kind : SpaceKind)
  /-- Some space gets its length, unless it has one. -/
  | resolve (s : SpaceId) (length : Length)

namespace Layout

def move (l : Layout) : Motion → Layout
  | .reserve n => l.reserve n
  | .align alignment => (l.align alignment).2
  | .pass kind guarantee => (l.passSpace kind guarantee).2
  | .moveTo place => l.moveTo place
  | .jump kind => (l.jump kind).2
  | .resolve s length => { l with spaces := (l.spaces.resolve? s length).getD l.spaces }

/-- Whether a counter only goes up unless it is moved, it is moved within itself, and no length depends on its own
space. Padding that is reserved at once has to fit into 32 bits. -/
def Allows (l : Layout) (c : Counter) : Motion → Prop
  | .reserve n => 0 ≤ n.toInt
  | .align alignment => ∀ offset, l.align alignment = (none, l.reserve (alignment.padding offset)) →
      alignment.gap offset < 2 ^ 31
  | .pass kind _ => kind = .storage ∨ kind = .alignment
  | .moveTo place => place.InCounter l.spaces c.sectionId c.id
  | .jump _ => True
  | .resolve s length => ∀ b, l.spaces.resolve? s length = some b → ∀ t, ¬ Relation.TransGen b.Mentions t t

/-- Whether a counter is in use, at a place of its own. -/
structure Uses (l : Layout) (c : Counter) : Prop where
  inUse : l.current? = some c.id
  current : l.current = some c
  acyclic : l.spaces.Acyclic
  bases : c.position.bases = [(c.sectionId, 1)]
  depends : c.position.DependsOn l.spaces c.id

/-- What a motion leads to. -/
structure Moves (l l' : Layout) (c c' : Counter) : Prop where
  uses : l'.Uses c'
  id : c'.id = c.id
  sectionId : c'.sectionId = c.sectionId
  origin : c'.origin = c.origin
  spaces : l.spaces.Earlier l'.spaces
  climbs : ∀ τ, l'.spaces.Fits τ → l'.spaces.Forward c.id τ → c.Climbs τ c'

variable {l l' : Layout} {c c' : Counter}

theorem Uses.ensureSection (h : l.Uses c) : l.ensureSection = l := ensureSection_of_current? h.inUse

theorem Uses.modifyCurrent (h : l.Uses c) {f : Counter → Counter} (hid : (f c).id = c.id)
    (hsection : (f c).sectionId = c.sectionId) (hbases : (f c).position.bases = [(c.sectionId, 1)])
    (hdepends : (f c).position.DependsOn l.spaces c.id) : (l.modifyCurrent f).Uses (f c) where
  inUse := by
    rw [(spaces_modifyCurrent l f).2, hid]
    exact h.inUse
  current := by
    rw [current_modifyCurrent, h.current]
    rfl
  acyclic := by
    rw [(spaces_modifyCurrent l f).1]
    exact h.acyclic
  bases := by
    rw [hsection]
    exact hbases
  depends := by
    rw [(spaces_modifyCurrent l f).1, hid]
    exact hdepends

theorem Uses.refl (h : l.Uses c) : l.Moves l c c where
  uses := h
  id := rfl
  sectionId := rfl
  origin := rfl
  spaces := .refl _
  climbs _ _ _ := .refl c

theorem Uses.reserve (h : l.Uses c) {n : Int32} (hn : 0 ≤ n.toInt) : l.Moves (l.reserve n) c (c.advance n) where
  uses := by
    rw [Layout.reserve, h.ensureSection]
    exact h.modifyCurrent rfl rfl h.bases (h.depends.addOffset n)
  id := rfl
  sectionId := rfl
  origin := rfl
  spaces := by
    rw [Layout.reserve, h.ensureSection, (spaces_modifyCurrent _ _).1]
    exact .refl _
  climbs _ _ _ := c.climbs_advance hn

/-- A further space, without a length and not passed yet. -/
theorem Uses.create (h : l.Uses c) (kind : SpaceKind) (g : Alignment) :
    ({ l with spaces := (l.spaces.create kind c.id g).2 } : Layout).Uses c where
  inUse := h.inUse
  current := h.current
  acyclic := h.acyclic.create _ _ _
  bases := h.bases
  depends := h.depends.later (l.spaces.earlier_create _ _ _)

/-- A space that is passed belongs to the counter in use. -/
theorem Uses.passSpace (h : l.Uses c) (kind : SpaceKind) (g : Alignment) :
    (l.passSpace kind g).2.Uses (c.pass ⟨l.spaces.size⟩) ∧ l.spaces.Earlier (l.passSpace kind g).2.spaces ∧
      (l.passSpace kind g).2.spaces.counter? ⟨l.spaces.size⟩ = some c.id ∧
      (l.passSpace kind g).2.spaces.kind? ⟨l.spaces.size⟩ = some kind := by
  rw [passSpace_eq l kind g (h.ensureSection.symm ▸ h.inUse), h.ensureSection]
  generalize (if l.originImplies g then g else Alignment.any) = guarantee
  have hcreate := h.create kind guarantee
  have hcounter := l.spaces.counter?_create kind c.id guarantee
  rw [(spaces_modifyCurrent _ _).1]
  exact ⟨hcreate.modifyCurrent rfl rfl h.bases (hcreate.depends.addSpace hcounter),
    l.spaces.earlier_create _ _ _, hcounter, l.spaces.kind?_create _ _ _⟩

theorem Uses.pass (h : l.Uses c) {kind : SpaceKind} (hkind : kind = .storage ∨ kind = .alignment) (g : Alignment) :
    ∃ c', l.Moves (l.passSpace kind g).2 c c' := by
  obtain ⟨huses, hearlier, hcounter, hnew⟩ := h.passSpace kind g
  refine ⟨_, huses, rfl, rfl, rfl, hearlier, fun τ _ hforward => c.climbs_pass (hforward _ hcounter ?_)⟩
  rw [hnew]
  exact hkind.imp (congrArg some) (congrArg some)

theorem Uses.align (h : l.Uses c) {alignment : Alignment}
    (hfits : ∀ offset, l.align alignment = (none, l.reserve (alignment.padding offset)) →
      alignment.gap offset < 2 ^ 31) : ∃ c', l.Moves (l.align alignment).2 c c' := by
  have up : ∀ offset, l.align alignment = (none, l.reserve (alignment.padding offset)) →
      ∃ c', l.Moves (l.align alignment).2 c c' := by
    intro offset heq
    have hgap : (alignment.padding offset).toInt = alignment.gap offset :=
      Int32.toInt_ofInt_of_le (by have := alignment.gap_nonneg offset; omega) (by have := hfits offset heq; omega)
    rw [heq]
    exact ⟨_, h.reserve (hgap ▸ alignment.gap_nonneg offset)⟩
  by_cases hboundary : 1 < alignment.boundary
  · -- The padding is reserved, by the offset or by what a guarantee tells, or it becomes a space.
    rcases align_cases h.ensureSection hboundary with ⟨-, heq⟩ | ⟨n, -, hn, heq⟩ | heq
    · exact up _ heq
    · obtain ⟨k, after, space, -, -, -, rfl⟩ := guaranteedPadding?_eq_some hn
      exact up _ heq
    · rw [heq]
      exact h.pass (.inr rfl) alignment
  · rw [Layout.align, if_pos (Nat.le_of_not_lt hboundary)]
    exact ⟨c, h.refl⟩

theorem Uses.moveTo (h : l.Uses c) {place : Address} (hplace : place.InCounter l.spaces c.sectionId c.id) :
    ∃ c', l.Moves (l.moveTo place) c c' := by
  obtain ⟨hsection, -, horigin⟩ := fields_mark c l.spaces
  have hid := (c.identity_mark l.spaces).1
  refine ⟨{ c.mark l.spaces with position := place, tail? := none }, ⟨?_, hid, hsection, horigin, ?_, fun τ hτ _ => ?_⟩⟩
  · rw [Layout.moveTo, h.ensureSection]
    exact h.modifyCurrent hid hsection hplace.bases hplace.dependsOn
  · rw [spaces_moveTo]
    exact .refl _
  · rw [spaces_moveTo] at hτ
    exact .leave l.spaces hτ horigin rfl

theorem Uses.jump (h : l.Uses c) (kind : SpaceKind) : ∃ c', l.Moves (l.jump kind).2 c c' := by
  obtain ⟨hsection, -, horigin⟩ := fields_mark c l.spaces
  have hid := (c.identity_mark l.spaces).1
  have hposition := position_mark c l.spaces
  have hmark : (l.modifyCurrent (·.mark l.spaces)).Uses (c.mark l.spaces) :=
    h.modifyCurrent hid hsection (hposition.symm ▸ h.bases) (hposition.symm ▸ h.depends)
  obtain ⟨huses, hearlier, -, -⟩ := hmark.passSpace kind .any
  rw [(spaces_modifyCurrent _ _).1] at hearlier
  rw [Layout.jump, h.ensureSection]
  exact ⟨_, huses, hid, hsection, horigin, hearlier, fun τ hτ _ =>
    .leave l.spaces (hearlier.fits hτ) horigin rfl⟩

theorem Uses.resolve (h : l.Uses c) {s : SpaceId} {length : Length}
    (hloop : ∀ b, l.spaces.resolve? s length = some b → ∀ t, ¬ Relation.TransGen b.Mentions t t) :
    l.Moves (l.move (.resolve s length)) c c := by
  unfold move
  dsimp only
  cases hb : l.spaces.resolve? s length with
  | none => exact h.refl
  | some b =>
    have hearlier := Spaces.earlier_of_resolve? hb
    refine ⟨⟨h.inUse, h.current, Spaces.acyclic_iff.mpr (hloop b hb), h.bases, h.depends.later hearlier⟩, rfl, rfl, rfl,
      hearlier, fun _ _ _ => .refl c⟩

theorem Uses.move (h : l.Uses c) {m : Motion} (hm : l.Allows c m) : ∃ c', l.Moves (l.move m) c c' := by
  cases m with
  | reserve n => exact ⟨_, h.reserve hm⟩
  | align alignment => exact h.align hm
  | pass kind g => exact h.pass hm g
  | moveTo place => exact h.moveTo hm
  | jump kind => exact h.jump kind
  | resolve s length => exact ⟨c, h.resolve hm⟩

/-! ## 4. The places of a counter -/

/-- Whether a counter is in use that has not moved yet, and no length depends on its own space. -/
structure Begins (l : Layout) (c : Counter) : Prop where
  inUse : l.current? = some c.id
  current : l.current = some c
  fresh : c.Fresh
  position : c.position.InCounter l.spaces c.sectionId c.id
  loopFree : ∀ t, ¬ Relation.TransGen l.spaces.Mentions t t

theorem Begins.uses (h : l.Begins c) : l.Uses c where
  inUse := h.inUse
  current := h.current
  acyclic := Spaces.acyclic_iff.mpr h.loopFree
  bases := h.position.bases
  depends := h.position.dependsOn

/-- A section begins with its first counter. -/
theorem begins_createSection (hloop : ∀ t, ¬ Relation.TransGen l.spaces.Mentions t t) (name? : Option Name)
    (kind : SectionKind) : ∃ c, (l.createSection name? kind).2.Begins c :=
  ⟨_, rfl, List.getElem?_concat_length, ⟨rfl, rfl⟩, Address.inCounter_start (Spaces.acyclic_iff.mpr hloop) _ _, hloop⟩

/-- A further counter begins with a space of its own. -/
theorem begins_createCounter (hloop : ∀ t, ¬ Relation.TransGen l.spaces.Mentions t t) (name : Name) {s : SectionId}
    (hs : l.ensureSection.currentSection? = some s) : ∃ c, (l.createCounter name).2.Begins c := by
  obtain ⟨hnone, -⟩ | ⟨s, -, heq⟩ := l.createCounter_cases name
  · exact absurd (hnone.symm.trans hs) (Option.some_ne_none s).symm
  rw [heq]
  rw [← l.spaces_ensureSection] at hloop
  generalize l.ensureSection = l₀ at hloop
  have hacyclic := (Spaces.acyclic_iff.mpr hloop).create .counterStart ⟨l₀.counters.length⟩ l₀.counterAlignment
  have hcounter := l₀.spaces.counter?_create .counterStart ⟨l₀.counters.length⟩ l₀.counterAlignment
  have hopen := l₀.spaces.not_isResolved_create .counterStart ⟨l₀.counters.length⟩ l₀.counterAlignment
  exact ⟨_, rfl, List.getElem?_concat_length, ⟨rfl, rfl⟩,
    Address.inCounter_start_addSpace hacyclic s hcounter hopen, hacyclic.not_mentions⟩

/-- The layouts that motions of a fresh counter lead to, with all places that the counter has had. -/
inductive Travels (start : Layout) (c : Counter) : List Address → Layout → Prop
  | start : Travels start c [start.position] start
  | move {places : List Address} {l : Layout} (h : Travels start c places l) {m : Motion} (hm : l.Allows c m) :
    Travels start c (places ++ [(l.move m).position]) (l.move m)

/-- What is known of the counter after any motions. -/
structure Tracks (c₀ : Counter) (places : List Address) (l : Layout) (c : Counter) : Prop where
  uses : l.Uses c
  id : c.id = c₀.id
  sectionId : c.sectionId = c₀.sectionId
  known : ∀ x ∈ places, x.bases = [(c₀.sectionId, 1)] ∧ x.DependsOn l.spaces c₀.id
  origin : c.origin ∈ places
  covers : ∀ τ, l.spaces.Fits τ → l.spaces.Forward c₀.id τ → Address.WithinRange τ places →
    Covers τ places (some c)

variable {c₀ : Counter} {places : List Address} {start : Layout}

theorem Uses.tracks (h : l.Uses c) (hfresh : c.Fresh) : Tracks c [l.position] l c := by
  have hposition := position_of_current h.current
  refine ⟨h, rfl, rfl, fun x hx => ?_, ?_, fun τ _ _ _ => ?_⟩
  · rw [List.mem_singleton.mp hx, hposition]
    exact ⟨h.bases, h.depends⟩
  · rw [hposition, hfresh.2]
    exact List.mem_cons_self
  · refine (Covers.fresh hfresh).congr fun x => ?_
    rw [hposition, hfresh.2]
    simp

theorem Tracks.move (h : Tracks c₀ places l c) {m : Motion} (hm : l.Allows c₀ m) :
    ∃ c', Tracks c₀ (places ++ [(l.move m).position]) (l.move m) c' := by
  have hallows : l.Allows c m := by
    cases m <;> first | exact hm | skip
    show Address.InCounter _ _ _ _
    rw [h.id, h.sectionId]
    exact hm
  obtain ⟨c', hmoves⟩ := h.uses.move hallows
  have hposition := position_of_current hmoves.uses.current
  have horigin : c'.origin ∈ places := hmoves.origin ▸ h.origin
  refine ⟨c', hmoves.uses, hmoves.id.trans h.id, hmoves.sectionId.trans h.sectionId, fun x hx => ?_,
    List.mem_append_left _ horigin, fun τ hτ hforward hfit => ?_⟩
  · rcases List.mem_append.mp hx with hx | hx
    · obtain ⟨hbases, hdepends⟩ := h.known x hx
      exact ⟨hbases, hdepends.later hmoves.spaces⟩
    · rw [List.mem_singleton.mp hx, hposition, ← h.id, ← h.sectionId, ← hmoves.id, ← hmoves.sectionId]
      exact ⟨hmoves.uses.bases, hmoves.uses.depends⟩
  · rw [hposition] at hfit ⊢
    -- The origin is among the places already.
    have hiff : ∀ x, x ∈ places ++ [c'.position] ↔ x ∈ places ++ [c'.origin, c'.position] := by
      intro x
      simp only [List.mem_append, List.mem_cons, List.not_mem_nil, or_false]
      constructor
      · exact fun hx => hx.imp (fun hx => hx) .inr
      · rintro (hx | rfl | hx)
        · exact .inl hx
        · exact .inl horigin
        · exact .inr hx
    have hcovers := h.covers τ (hmoves.spaces.fits hτ) (hforward.earlier hmoves.spaces)
      (hfit.subset fun x hx => List.mem_append_left _ hx)
    have hclimbs := hmoves.climbs τ hτ (h.id ▸ hforward)
    exact (hcovers.climb hclimbs (hfit.subset fun x hx => (hiff x).mpr hx)).congr hiff

theorem Travels.tracks (h : Travels start c₀ places l) (hstart : start.Begins c₀) : ∃ c, Tracks c₀ places l c := by
  induction h with
  | start => exact ⟨c₀, hstart.uses.tracks hstart.fresh⟩
  | move _ hm ih =>
    obtain ⟨c, hc⟩ := ih
    exact hc.move hm

theorem candidates_of_current (h : l.current = some c) : l.candidates = c.candidates := by
  rw [candidates, h]
  rfl

theorem Tracks.waiting (h : Tracks c₀ places l c) {waiting : List SpaceId}
    (hfind : Address.highest l.spaces l.candidates = .error waiting) : waiting ≠ [] ∧
      waiting.Pairwise (fun s t => s.index < t.index) ∧ ∀ s ∈ waiting, ¬ l.spaces.isResolved s := by
  rw [candidates_of_current h.uses.current] at hfind
  exact Address.waiting_of_highest h.uses.acyclic c.candidates_ne_nil hfind

/-- When all lengths are known, the search ends with a place that is not below any other one. -/
theorem Tracks.exists_highest (h : Tracks c₀ places l c)
    (hknown : ∀ k, l.spaces.counter? k = some c₀.id → ∃ n, l.spaces.bytes? k = some n)
    (hforward : ∀ k, l.spaces.counter? k = some c₀.id →
      l.spaces.kind? k = some .storage ∨ l.spaces.kind? k = some .alignment →
      ∀ n, l.spaces.bytes? k = some n → 0 ≤ n.toInt)
    (hnear : ∀ x ∈ places, ∀ y ∈ places, x.Near l.spaces y) :
    ∃ x ∈ places, Address.highest l.spaces l.candidates = .ok x ∧
      ∀ y ∈ places, y.offsetIn l.spaces ≤ x.offsetIn l.spaces := by
  have ha := h.uses.acyclic
  -- All placements that fit give the places the same bytes, so one of them is enough.
  have hbytes : ∀ τ, l.spaces.Fits τ → ∀ x ∈ places, x.bytes τ = x.offsetIn l.spaces := fun τ hτ x hx =>
    Address.bytes_eq_offsetIn ((h.known x hx).2.spaces_eq_nil ha hknown) hτ
  obtain ⟨τ, hτ, -⟩ := Spaces.exists_fits ha fun _ => 0
  have hheight : ∀ x ∈ places, x.height τ = (x.offsetIn l.spaces).toInt := fun x hx =>
    congrArg Int32.toInt (hbytes τ hτ x hx)
  have hrange : Address.WithinRange τ places := fun x hx y hy => by
    rw [hbytes τ hτ x hx, hbytes τ hτ y hy, hheight x hx, hheight y hy]
    exact hnear y hy x hx
  have hcovers := h.covers τ hτ (fun k hk hkind => by
    obtain ⟨n, hn⟩ := hknown k hk
    rw [Spaces.eq_of_bytes? hτ hn]
    exact hforward k hk hkind n hn) hrange
  have hsub : c.candidates ⊆ places := (hcovers.known c rfl).2
  -- Known bytes have known distances, so the search does not have to wait.
  obtain ⟨x, hx⟩ := Address.exists_highest c.candidates_ne_nil fun x hx y hy => by
    refine (Address.apart_iff ha).mp ⟨x.offsetIn l.spaces - y.offsetIn l.spaces, fun υ hυ => ?_⟩
    rw [hbytes υ hυ x (hsub hx), hbytes υ hυ y (hsub hy)]
    grind
  have hmem := hsub (Address.mem_of_highest hx)
  refine ⟨x, hmem, by rw [candidates_of_current h.uses.current, hx], fun y hy => ?_⟩
  -- The candidate that covers a place is not above the one that was found.
  obtain ⟨d, hd, z, hz, hle⟩ := hcovers.covered y hy
  cases hd
  have hhighest := Address.height_le_highest hτ (hrange.subset hsub) hx z hz
  rw [Int32.le_iff_toInt_le, ← hheight x hmem, ← hheight y hy]
  exact hle.trans hhighest

/-- A counter that is fresh goes up and is moved within itself, while spaces get lengths. Whenever its highest place
cannot be found yet, the search waits for open spaces, at least one and in order. When the lengths of all its spaces
are known, those of storage and padding are not negative and all distances fit into 32 bits, the search finds a
place of the counter, all its places are known, and none lies above that one. -/
theorem highest_of_travels (hstart : start.Begins c₀) (h : Travels start c₀ places l) :
    (∀ waiting, Address.highest l.spaces l.candidates = .error waiting → waiting ≠ [] ∧
      waiting.Pairwise (fun s t => s.index < t.index) ∧ ∀ s ∈ waiting, ¬ l.spaces.isResolved s) ∧
    ((∀ k, l.spaces.counter? k = some c₀.id → ∃ n, l.spaces.bytes? k = some n) →
      (∀ k, l.spaces.counter? k = some c₀.id →
        l.spaces.kind? k = some .storage ∨ l.spaces.kind? k = some .alignment →
        ∀ n, l.spaces.bytes? k = some n → 0 ≤ n.toInt) →
      (∀ x ∈ places, ∀ y ∈ places, x.Near l.spaces y) →
      (∀ x ∈ places, x.normalize l.spaces = { Address.start c₀.sectionId with offset := x.offsetIn l.spaces }) ∧
      ∃ x ∈ places, Address.highest l.spaces l.candidates = .ok x ∧
        ∀ y ∈ places, y.offsetIn l.spaces ≤ x.offsetIn l.spaces) := by
  obtain ⟨c, hc⟩ := h.tracks hstart
  refine ⟨fun waiting => hc.waiting, fun hknown hforward hnear =>
    ⟨fun x hx => ?_, hc.exists_highest hknown hforward hnear⟩⟩
  obtain ⟨hbases, hdepends⟩ := hc.known x hx
  have hnil := hdepends.spaces_eq_nil hc.uses.acyclic hknown
  calc x.normalize l.spaces
      = { x with offset := x.offsetIn l.spaces, spaces := (x.normalize l.spaces).spaces } := rfl
    _ = { Address.start c₀.sectionId with offset := x.offsetIn l.spaces } := by
        rw [hnil, hbases]
        rfl

/-! ### A move back over a space -/

namespace MoveBack

def opened : Layout := ((Layout.new 8).createSection none .executable).2

def first : Counter :=
  { id := ⟨0⟩, name? := none, sectionId := ⟨0⟩, origin := .start ⟨0⟩, position := .start ⟨0⟩ }

/-- Storage of an unknown length is passed. -/
def passed : Layout := opened.move (.pass .storage .any)

def back : Layout := passed.move (.moveTo ((Address.start ⟨0⟩).addOffset 16))

/-- The storage has 24 bytes. -/
def known : Layout := back.move (.resolve ⟨0⟩ ⟨24, []⟩)

def visited : List Address := [opened.position, passed.position, back.position, known.position]

theorem begins_opened : opened.Begins first := by
  obtain ⟨c, hc⟩ := (Layout.new 8).begins_createSection Spaces.acyclic_empty.not_mentions none .executable
  have heq : first = c := Option.some.inj hc.current
  exact heq ▸ hc

theorem travels_back : Travels opened first [opened.position, passed.position, back.position] back := by
  have hpassed : Travels opened first [opened.position, passed.position] passed :=
    Travels.move .start (m := .pass .storage .any) (.inl rfl)
  exact hpassed.move (m := .moveTo ((Address.start ⟨0⟩).addOffset 16)) ⟨rfl, by decide⟩

theorem travels_known : Travels opened first visited known := by
  refine travels_back.move (m := .resolve ⟨0⟩ ⟨24, []⟩) fun b hb => ?_
  have hacyclic : back.spaces.Acyclic := (travels_back.tracks begins_opened).elim fun _ h => h.uses.acyclic
  exact (hacyclic.resolve? (List.forall_mem_nil _) hb).not_mentions

/-- As long as the length is open, the place behind the storage may or may not be the highest. It is, as the length
turns out to be more than 16. -/
theorem highest_of_travels_back :
    Address.highest back.spaces back.candidates = .error [⟨0⟩] ∧ ¬ back.spaces.isResolved ⟨0⟩ ∧
    ∃ x, Address.highest known.spaces known.candidates = .ok x ∧ x = passed.position ∧
      opened.position.offsetIn known.spaces ≤ x.offsetIn known.spaces ∧
      back.position.offsetIn known.spaces ≤ x.offsetIn known.spaces := by
  have hwaiting : Address.highest back.spaces back.candidates = .error [⟨0⟩] := rfl
  refine ⟨hwaiting, ?_, ?_⟩
  · exact ((highest_of_travels begins_opened travels_back).1 _ hwaiting).2.2 _ List.mem_cons_self
  have hspace : ∀ k id, known.spaces.counter? k = some id → k = ⟨0⟩ := fun k id hk => by
    obtain ⟨space, hspace, -⟩ := Option.map_eq_some_iff.mp hk
    have hlt : k.index < 1 := Spaces.lt_size_of_get? hspace
    cases k
    simp_all
  obtain ⟨-, x, hx, hhighest, hmax⟩ := (highest_of_travels begins_opened travels_known).2
    (fun k hk => ⟨24, by rw [hspace k _ hk]; decide⟩)
    (fun k hk _ n hn => by
      rw [hspace k _ hk] at hn
      cases hn
      decide)
    (by simp only [Address.Near]; decide)
  refine ⟨x, hhighest, ?_, hmax _ ?_, hmax _ ?_⟩
  · exact (Except.ok.inj hhighest).symm
  · exact List.mem_cons_self
  · exact List.mem_cons_of_mem _ (List.mem_cons_of_mem _ List.mem_cons_self)

end MoveBack

end Layout

end Assembler
