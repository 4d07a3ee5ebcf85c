import Assembler.Proofs.Boundary
import Assembler.Proofs.Operation
import Assembler.Proofs.Parameter
import Assembler.Proofs.TakenName
/-!
The sections and location counters of a session.

Every counter stays in its section, whose list it is on, and no two sections or counters have the same name
(`Layout.Ordered`). ORG leads to places in the section of the counter only, and a name is checked against all
symbols before a section or a counter gets it, so statements keep this (`Assembly.ordered_process`). What follows for
the states of a session is put together in `Assembly.Inventory`.
-/

namespace Assembler

/-! ## 1. Places of counters -/

/-- Whether all places of a counter are in its section. -/
structure Counter.Homed (c : Counter) : Prop where
  origin : c.origin.bases = [(c.sectionId, 1)]
  position : c.position.bases = [(c.sectionId, 1)]
  marks : ∀ x ∈ c.marks, x.bases = [(c.sectionId, 1)]

/-- A mark changes neither the id nor the name of a counter. -/
theorem Counter.identity_mark (c : Counter) (a : Spaces) : (c.mark a).id = c.id ∧ (c.mark a).name? = c.name? := by
  unfold Counter.mark
  split <;> exact ⟨rfl, rfl⟩

namespace Counter.Homed

variable {c : Counter}

theorem candidates (h : c.Homed) : ∀ x ∈ c.candidates, x.bases = [(c.sectionId, 1)] := by
  intro x hx
  rcases List.mem_append.mp hx with hx | hx
  · exact h.marks x hx
  · exact List.mem_singleton.mp hx ▸ h.position

theorem advance (h : c.Homed) (n : Int32) : (c.advance n).Homed := ⟨h.origin, h.position, h.marks⟩

theorem pass (h : c.Homed) (s : SpaceId) : (c.pass s).Homed := ⟨h.origin, h.position, h.marks⟩

theorem mark (h : c.Homed) (a : Spaces) : (c.mark a).Homed := by
  unfold Counter.mark
  split
  · exact h
  · refine ⟨h.origin, h.position, fun x hx => ?_⟩
    rcases List.mem_append.mp hx with hx | hx
    · exact h.marks x (List.mem_filter.mp hx).1
    · exact List.mem_singleton.mp hx ▸ h.position

theorem moveTo (h : c.Homed) (a : Spaces) {place : Address} (hplace : place.bases = [(c.sectionId, 1)]) :
    ({ c.mark a with position := place, tail? := none } : Counter).Homed := by
  have hmark := h.mark a
  have hid : (c.mark a).sectionId = c.sectionId := (Layout.fields_mark c a).1
  exact ⟨hmark.origin, hplace.trans (by rw [hid]), hmark.marks⟩

end Counter.Homed

namespace Layout

variable {l l' : Layout}

/-! ## 2. Names and kinds of sections -/

/-- The names and the kinds of the sections. -/
def labels (l : Layout) : List (Option Name × SectionKind) := l.sections.map fun sect => (sect.name?, sect.kind)

theorem getElem?_labels {i : Nat} {name? : Option Name} {kind : SectionKind} :
    l.labels[i]? = some (name?, kind) ↔
      ∃ sect, l.sections[i]? = some sect ∧ sect.name? = name? ∧ sect.kind = kind := by
  simp [labels, Prod.ext_iff]

theorem labels_createSection (l : Layout) (name? : Option Name) (kind : SectionKind) :
    (l.createSection name? kind).2.labels = l.labels ++ [(name?, kind)] := by
  simp [labels, createSection]

@[simp] theorem labels_modifyCurrent (l : Layout) (f : Counter → Counter) :
    (l.modifyCurrent f).labels = l.labels := by
  unfold modifyCurrent
  split <;> rfl

/-- A change of one element does not show in what it leaves alone. -/
theorem map_modify {α β : Type} {f : α → α} {g : α → β} (h : ∀ x, g (f x) = g x) (xs : List α) (i : Nat) :
    (xs.modify i f).map g = xs.map g := by
  refine List.ext_getElem? fun j => ?_
  rw [List.getElem?_map, List.getElem?_map, List.getElem?_modify]
  cases xs[j]? with
  | none => rfl
  | some x =>
    show some (g (if i = j then f x else x)) = some (g x)
    split
    · rw [h]
    · rfl

@[simp] theorem labels_resumeSection (l : Layout) (s : SectionId) : (l.resumeSection s).labels = l.labels := by
  unfold resumeSection
  split <;> rfl

@[simp] theorem labels_resumeCounter (l : Layout) (c : CounterId) : (l.resumeCounter c).labels = l.labels := by
  unfold resumeCounter
  split
  · refine map_modify (fun sect => ?_) _ _
    rfl
  · rfl

@[simp] theorem labels_addCounter (l : Layout) (name : Name) (s : SectionId) :
    (l.addCounter name s).labels = l.labels := by
  refine map_modify (fun sect => ?_) _ _
  rfl

@[simp] theorem labels_createCounter (l : Layout) (name : Name) :
    (l.createCounter name).2.labels = l.ensureSection.labels := by
  obtain ⟨-, heq⟩ | ⟨s, -, heq⟩ := l.createCounter_cases name <;> rw [heq]
  exact l.ensureSection.labels_addCounter name s

@[simp] theorem labels_reserve (l : Layout) (n : Int32) : (l.reserve n).labels = l.ensureSection.labels := by
  simp [reserve]

@[simp] theorem labels_moveTo (l : Layout) (place : Address) : (l.moveTo place).labels = l.ensureSection.labels := by
  simp [moveTo]

@[simp] theorem labels_passSpace (l : Layout) (kind : SpaceKind) (g : Alignment) :
    (l.passSpace kind g).2.labels = l.ensureSection.labels := by
  obtain ⟨id, hid⟩ := l.exists_current_ensureSection
  rw [passSpace_eq l kind g hid, labels_modifyCurrent]
  rfl

theorem labels_ensureSection (l : Layout) : l.labels <+: l.ensureSection.labels := by
  unfold ensureSection
  split
  · exact List.prefix_rfl
  · rw [labels_createSection]
    exact List.prefix_append ..

theorem labels_jump (l : Layout) (kind : SpaceKind) : l.labels <+: (l.jump kind).2.labels := by
  unfold jump
  rw [labels_passSpace]
  refine l.labels_ensureSection.trans ?_
  rw [← labels_modifyCurrent l.ensureSection]
  exact labels_ensureSection _

theorem labels_align (l : Layout) (a : Alignment) : l.labels <+: (l.align a).2.labels := by
  have hsection := l.labels_ensureSection.trans l.ensureSection.labels_ensureSection
  rcases l.align_outcome a with heq | ⟨n, heq⟩ | heq <;> rewrite [heq] <;> dsimp only
  · exact List.prefix_rfl
  · rwa [labels_reserve]
  · rwa [labels_passSpace]

theorem Fills.labels (h : l.Fills l') : l'.labels = l.labels := congrArg (List.map _) h.sections

/-- A layout with a counter in use has sections. -/
theorem Formed.labels_ne_nil (h : l.Formed) {c : Counter} (hc : l.current = some c) : l.labels ≠ [] := by
  obtain ⟨id, -, hget⟩ := Option.bind_eq_some_iff.mp hc
  obtain ⟨sect, hsect, -⟩ := h.listed id.index c hget
  exact List.map_eq_nil_iff.not.mpr (List.ne_nil_of_mem (List.mem_of_getElem? hsect))

/-! ## 3. Layouts -/

/-- What holds of the ids, the names and the places in a layout in which the names of counters are taken for their
origins. -/
structure Ordered (taken : Name → Address → Prop) (l : Layout) : Prop where
  /-- Without a counter in use no section has been started. -/
  started : l.current? = none → l.labels = []
  sectionIds : ∀ (i : Nat) (sect : Section), l.sections[i]? = some sect → sect.id = ⟨i⟩
  counterIds : ∀ (j : Nat) (c : Counter), l.counters[j]? = some c → c.id = ⟨j⟩
  homed : ∀ (j : Nat) (c : Counter), l.counters[j]? = some c → c.Homed
  active : ∀ (i : Nat) (sect : Section), l.sections[i]? = some sect → sect.active ∈ sect.counters
  /-- The first counter of a section has its name. -/
  first : ∀ (i : Nat) (sect : Section), l.sections[i]? = some sect → ∃ id, sect.counters.head? = some id ∧
    ∃ c : Counter, l.counters[id.index]? = some c ∧ c.name? = sect.name? ∧ c.start? = none ∧
      c.origin = .start ⟨i⟩
  distinct : ∀ (i j : Nat) (c d : Counter) (n : Name), l.counters[i]? = some c → l.counters[j]? = some d →
    c.name? = some n → d.name? = some n → i = j
  single : ∀ (i j : Nat) (kind : SectionKind), l.labels[i]? = some (none, kind) →
    l.labels[j]? = some (none, kind) → i = j
  taken : ∀ (j : Nat) (c : Counter) (n : Name), l.counters[j]? = some c → c.name? = some n → taken n c.origin

namespace Ordered

variable {taken taken' : Name → Address → Prop}

theorem new (boundary : Nat) : (Layout.new boundary).Ordered taken where
  started _ := rfl
  sectionIds _ _ h := nomatch h
  counterIds _ _ h := nomatch h
  homed _ _ h := nomatch h
  active _ _ h := nomatch h
  first _ _ h := nomatch h
  distinct _ _ _ _ _ h := nomatch h
  single _ _ _ h := nomatch h
  taken _ _ _ h := nomatch h

theorem mono (h : l.Ordered taken) (himp : ∀ n place, taken n place → taken' n place) : l.Ordered taken' :=
  { h with taken := fun j c n hc hn => himp n _ (h.taken j c n hc hn) }

/-- Lengths of spaces do not matter. -/
theorem congr (h : l.Ordered taken) (hsections : l'.sections = l.sections) (hcounters : l'.counters = l.counters)
    (hcurrent : l'.current? = l.current?) : l'.Ordered taken := by
  cases l
  cases l'
  obtain ⟨rfl, rfl, rfl⟩ : _ ∧ _ ∧ _ := ⟨hsections, hcounters, hcurrent⟩
  exact { h with }

theorem fills (h : l.Ordered taken) (hfill : l.Fills l') : l'.Ordered taken :=
  h.congr hfill.sections hfill.counters hfill.current?

theorem current (h : l.Ordered taken) {c : Counter} (hc : l.current = some c) : c.Homed := by
  obtain ⟨id, -, hget⟩ := Option.bind_eq_some_iff.mp hc
  exact h.homed id.index c hget

/-- A layout with sections has a counter in use. -/
theorem exists_current (h : l.Ordered taken) (hf : l.Formed) (hne : l.labels ≠ []) :
    ∃ c, l.current = some c := by
  cases hid : l.current? with
  | none => exact absurd (h.started hid) hne
  | some id =>
    have hlt := hf.current id hid
    refine ⟨l.counters[id.index], ?_⟩
    rw [Layout.current, hid]
    exact List.getElem?_eq_getElem hlt

/-! ### The counter in use -/

/-- A change of the counter in use that keeps it in its section and leaves its id, its name and its start alone. -/
theorem modifyCurrent (h : l.Ordered taken) {f : Counter → Counter}
    (hid : ∀ c, (f c).id = c.id) (hname : ∀ c, (f c).name? = c.name?) (hstart : ∀ c, (f c).start? = c.start?)
    (horigin : ∀ c, (f c).origin = c.origin) (hhomed : ∀ c, l.current = some c → (f c).Homed) :
    (l.modifyCurrent f).Ordered taken := by
  have hlabels := l.labels_modifyCurrent f
  unfold Layout.modifyCurrent at hlabels ⊢
  split at hlabels
  · rename_i id hcurrent
    -- What is left alone at each number.
    have hold : ∀ {j : Nat} {c : Counter}, (l.counters.modify id.index f)[j]? = some c →
        ∃ d, l.counters[j]? = some d ∧ c.id = d.id ∧ c.name? = d.name? ∧ c.origin = d.origin := by
      intro j c hc
      obtain ⟨d, hd, rfl⟩ := getElem?_modify_eq_some hc
      refine ⟨d, hd, ?_⟩
      split
      · exact ⟨hid d, hname d, horigin d⟩
      · exact ⟨rfl, rfl, rfl⟩
    exact {
      started := h.started
      sectionIds := h.sectionIds
      active := h.active
      single := h.single
      counterIds := fun j c hc => by
        obtain ⟨d, hd, heq, -⟩ := hold hc
        exact heq.trans (h.counterIds j d hd)
      homed := fun j c hc => by
        obtain ⟨d, hd, rfl⟩ := getElem?_modify_eq_some hc
        split
        · rename_i hj
          refine hhomed d ?_
          rw [Layout.current, hcurrent]
          show l.counters[id.index]? = some d
          rw [hj]
          exact hd
        · exact h.homed j d hd
      first := fun i sect hsect => by
        obtain ⟨first, hfirst, c, hc, hcname, hcstart, hcorigin⟩ := h.first i sect hsect
        refine ⟨first, hfirst, _, getElem?_modify hc, ?_⟩
        split
        · exact ⟨(hname c).trans hcname, (hstart c).trans hcstart, (horigin c).trans hcorigin⟩
        · exact ⟨hcname, hcstart, hcorigin⟩
      distinct := fun i j c d n hc hd hcn hdn => by
        obtain ⟨c', hc', -, hcname, -⟩ := hold hc
        obtain ⟨d', hd', -, hdname, -⟩ := hold hd
        exact h.distinct i j c' d' n hc' hd' (hcname ▸ hcn) (hdname ▸ hdn)
      taken := fun j c n hc hcn => by
        obtain ⟨d, hd, -, hdname, hdorigin⟩ := hold hc
        rw [hdorigin]
        exact h.taken j d n hd (hdname ▸ hcn) }
  · exact h

theorem mark (h : l.Ordered taken) (a : Spaces) : (l.modifyCurrent (·.mark a)).Ordered taken :=
  h.modifyCurrent (fun c => (c.identity_mark a).1) (fun c => (c.identity_mark a).2) (fun c => (fields_mark c a).2.1)
    (fun c => (fields_mark c a).2.2) fun _ hc => (h.current hc).mark a

/-! ### Sections -/

theorem createSection (h : l.Ordered taken) {name? : Option Name} {kind : SectionKind}
    (hnew : ∀ n, name? = some n → taken n (.start ⟨l.sections.length⟩) ∧
      ∀ (j : Nat) (c : Counter), l.counters[j]? = some c → c.name? ≠ some n)
    (hsingle : name? = none → (none, kind) ∉ l.labels) : (l.createSection name? kind).2.Ordered taken where
  started hnone := nomatch hnone
  sectionIds i sect hsect := by
    rcases getElem?_concat_eq_some.mp hsect with hsect | ⟨hi, rfl⟩
    · exact h.sectionIds i sect hsect
    · exact congrArg SectionId.mk hi.symm
  counterIds j c hc := by
    rcases getElem?_concat_eq_some.mp hc with hc | ⟨hj, rfl⟩
    · exact h.counterIds j c hc
    · exact congrArg CounterId.mk hj.symm
  homed j c hc := by
    rcases getElem?_concat_eq_some.mp hc with hc | ⟨-, rfl⟩
    · exact h.homed j c hc
    · exact ⟨rfl, rfl, fun _ hx => nomatch hx⟩
  active i sect hsect := by
    rcases getElem?_concat_eq_some.mp hsect with hsect | ⟨-, rfl⟩
    · exact h.active i sect hsect
    · exact List.mem_singleton_self _
  first i sect hsect := by
    rcases getElem?_concat_eq_some.mp hsect with hsect | ⟨hi, rfl⟩
    · obtain ⟨first, hfirst, c, hc, hrest⟩ := h.first i sect hsect
      exact ⟨first, hfirst, c, getElem?_concat_eq_some.mpr (.inl hc), hrest⟩
    · exact ⟨_, rfl, _, getElem?_concat_eq_some.mpr (.inr ⟨rfl, rfl⟩), rfl, rfl, by rw [hi]⟩
  distinct i j c d n hc hd hcn hdn := by
    rcases getElem?_concat_eq_some.mp hc with hc | ⟨hi, rfl⟩
    · rcases getElem?_concat_eq_some.mp hd with hd | ⟨-, rfl⟩
      · exact h.distinct i j c d n hc hd hcn hdn
      · exact absurd hcn ((hnew n hdn).2 i c hc)
    · rcases getElem?_concat_eq_some.mp hd with hd | ⟨hj, rfl⟩
      · exact absurd hdn ((hnew n hcn).2 j d hd)
      · rw [hi, hj]
  single i j k hi hj := by
    rw [labels_createSection] at hi hj
    rcases getElem?_concat_eq_some.mp hi with hold | ⟨hlast, heq⟩
    · rcases getElem?_concat_eq_some.mp hj with hold' | ⟨-, heq⟩
      · exact h.single i j k hold hold'
      · cases heq
        exact absurd (List.mem_of_getElem? hold) (hsingle rfl)
    · rcases getElem?_concat_eq_some.mp hj with hold | ⟨hlast', -⟩
      · cases heq
        exact absurd (List.mem_of_getElem? hold) (hsingle rfl)
      · rw [hlast, hlast']
  taken j c n hc hn := by
    rcases getElem?_concat_eq_some.mp hc with hc | ⟨-, rfl⟩
    · exact h.taken j c n hc hn
    · exact (hnew n hn).1

theorem ensureSection (h : l.Ordered taken) : l.ensureSection.Ordered taken := by
  unfold Layout.ensureSection
  split
  · exact h
  · rename_i hnone
    refine h.createSection (fun _ hn => nomatch hn) fun _ => ?_
    rw [h.started hnone]
    exact List.not_mem_nil

theorem resumeSection (h : l.Ordered taken) (s : SectionId) : (l.resumeSection s).Ordered taken := by
  unfold Layout.resumeSection
  split
  · exact { h with started := fun hnone => nomatch hnone }
  · exact h

/-- A counter is on the list of the section that is left in it. -/
theorem resumeCounter (h : l.Ordered taken) (hf : l.Formed) (c : CounterId) :
    (l.resumeCounter c).Ordered taken := by
  have hlabels := l.labels_resumeCounter c
  unfold Layout.resumeCounter at hlabels ⊢
  split at hlabels
  · rename_i counter hcounter
    -- The section that is changed is the one with the counter on its list.
    obtain ⟨owner, howner, hmem, -⟩ := hf.listed c.index counter hcounter
    exact {
      started := fun hnone => nomatch hnone
      counterIds := h.counterIds
      homed := h.homed
      distinct := h.distinct
      taken := h.taken
      single := by
        rw [hlabels]
        exact h.single
      sectionIds := fun i sect hsect => by
        obtain ⟨old, hold, rfl⟩ := getElem?_modify_eq_some hsect
        split <;> exact h.sectionIds i old hold
      active := fun i sect hsect => by
        obtain ⟨old, hold, rfl⟩ := getElem?_modify_eq_some hsect
        split
        · rename_i hi
          rw [hi, hold] at howner
          cases howner
          exact hmem
        · exact h.active i old hold
      first := fun i sect hsect => by
        obtain ⟨old, hold, rfl⟩ := getElem?_modify_eq_some hsect
        split <;> exact h.first i old hold }
  · exact h

/-! ### Further counters -/

/-- The names stay different if no counter has the name of the further one. -/
theorem distinct_addCounter (h : l.Ordered taken) {name : Name} {s : SectionId}
    (hfree : ∀ (j : Nat) (c : Counter), l.counters[j]? = some c → c.name? ≠ some name)
    (i j : Nat) (c d : Counter) (n : Name) (hc : (l.addCounter name s).counters[i]? = some c)
    (hd : (l.addCounter name s).counters[j]? = some d) (hcn : c.name? = some n) (hdn : d.name? = some n) : i = j := by
  rcases getElem?_addCounter.mp hc with hc | ⟨hi, rfl⟩ <;>
    rcases getElem?_addCounter.mp hd with hd | ⟨hj, rfl⟩
  · exact h.distinct i j c d n hc hd hcn hdn
  · cases hdn
    exact absurd hcn (hfree i c hc)
  · cases hcn
    exact absurd hdn (hfree j d hd)
  · rw [hi, hj]

/-- A further counter comes behind those that its section has, so the first of the section stays. -/
theorem addCounter (h : l.Ordered taken) {name : Name} {s : SectionId}
    (hnew : taken name (l.furtherCounter name s).origin)
    (hfree : ∀ (j : Nat) (c : Counter), l.counters[j]? = some c → c.name? ≠ some name) :
    (l.addCounter name s).Ordered taken where
  started hnone := absurd hnone (Option.some_ne_none _)
  single := by
    rw [labels_addCounter]
    exact h.single
  sectionIds i sect hsect := by
    obtain ⟨old, hold, rfl⟩ := getElem?_modify_eq_some hsect
    split <;> exact h.sectionIds i old hold
  counterIds j c hc := by
    rcases getElem?_addCounter.mp hc with hc | ⟨hj, rfl⟩
    · exact h.counterIds j c hc
    · exact congrArg CounterId.mk hj.symm
  homed j c hc := by
    rcases getElem?_addCounter.mp hc with hc | ⟨-, rfl⟩
    · exact h.homed j c hc
    · exact ⟨rfl, rfl, List.forall_mem_nil _⟩
  active i sect hsect := by
    obtain ⟨old, hold, rfl⟩ := getElem?_modify_eq_some hsect
    split
    · exact List.mem_append_right _ (List.mem_singleton_self _)
    · exact h.active i old hold
  first i sect hsect := by
    obtain ⟨old, hold, rfl⟩ := getElem?_modify_eq_some hsect
    obtain ⟨first, hfirst, c, hc, hrest⟩ := h.first i old hold
    refine ⟨first, ?_, c, getElem?_addCounter.mpr (.inl hc), ?_⟩
    · split
      · exact List.head?_append.trans (by rw [hfirst]; rfl)
      · exact hfirst
    · split <;> exact hrest
  distinct := h.distinct_addCounter hfree
  taken j c n hc hn := by
    rcases getElem?_addCounter.mp hc with hc | ⟨-, rfl⟩
    · exact h.taken j c n hc hn
    · cases hn
      exact hnew

theorem createCounter (h : l.Ordered taken) {name : Name} (hnew : taken name (l.createCounter name).2.origin)
    (hfree : ∀ (j : Nat) (c : Counter), l.ensureSection.counters[j]? = some c → c.name? ≠ some name) :
    (l.createCounter name).2.Ordered taken := by
  obtain ⟨-, heq⟩ | ⟨s, -, heq⟩ := l.createCounter_cases name <;> rw [heq] at hnew ⊢
  · exact h.ensureSection
  · -- The further counter is the one in use, so the name is taken for its origin.
    rw [Layout.origin, Layout.current, Layout.addCounter, Option.bind_some, Layout.counter?,
      getElem?_concat_eq_some.mpr (.inr ⟨rfl, rfl⟩)] at hnew
    exact h.ensureSection.addCounter hnew hfree

/-! ### Moves -/

theorem reserve (h : l.Ordered taken) (n : Int32) : (l.reserve n).Ordered taken :=
  h.ensureSection.modifyCurrent (fun _ => rfl) (fun _ => rfl) (fun _ => rfl) (fun _ => rfl)
    fun _ hc => (h.ensureSection.current hc).advance n

/-- A move has to lead to a place in the section of the counter. -/
theorem moveTo (h : l.Ordered taken) {place : Address}
    (hplace : ∀ c, l.ensureSection.current = some c → place.bases = [(c.sectionId, 1)]) :
    (l.moveTo place).Ordered taken :=
  h.ensureSection.modifyCurrent (fun c => (c.identity_mark _).1) (fun c => (c.identity_mark _).2)
    (fun c => (fields_mark c _).2.1) (fun c => (fields_mark c _).2.2)
    fun c hc => (h.ensureSection.current hc).moveTo _ (hplace c hc)

theorem passSpace (h : l.Ordered taken) (kind : SpaceKind) (g : Alignment) : (l.passSpace kind g).2.Ordered taken := by
  obtain ⟨id, hid⟩ := l.exists_current_ensureSection
  rw [passSpace_eq l kind g hid]
  have hcreated : Ordered taken { l.ensureSection with
      spaces := (l.ensureSection.spaces.create kind id
        (if l.ensureSection.originImplies g then g else .any)).2 } := h.ensureSection.congr rfl rfl rfl
  exact hcreated.modifyCurrent (fun _ => rfl) (fun _ => rfl) (fun _ => rfl) (fun _ => rfl)
    fun _ hc => (hcreated.current hc).pass _

theorem jump (h : l.Ordered taken) (kind : SpaceKind) : (l.jump kind).2.Ordered taken :=
  (h.ensureSection.mark _).passSpace kind .any

theorem align (h : l.Ordered taken) (a : Alignment) : (l.align a).2.Ordered taken := by
  rcases l.align_outcome a with heq | ⟨n, heq⟩ | heq <;> rw [heq]
  · exact h
  · exact h.ensureSection.reserve n
  · exact h.ensureSection.passSpace _ _

end Ordered

end Layout

/-! ## 4. Statements -/

namespace Assembly

variable {s t : Assembly} {st : Statement} {taken : Name → Address → Prop}

theorem Still.ordered (h : Still st s t) (ho : s.layout.Ordered taken) : t.layout.Ordered taken := by
  rcases h.fills with hfill | heq
  · exact ho.fills hfill
  · rw [heq]
    exact ho.ensureSection

/-- An act other than the start of a section or of a counter. A move needs a counter in use, as its target is in the
section of that one. -/
theorem Act.ordered (h : Act st s t) (hs : s.Ready) (hsection : ∀ kind, st.operation ≠ .sectionStart kind)
    (hcounter : st.operation ≠ .counterStart) (hstarted : st.IsOrg → s.layout.labels ≠ [])
    (ho : s.layout.Ordered taken) : t.layout.Ordered taken := by
  cases h with
  | still h => exact h.ordered ho
  | createSection _ hop => exact absurd hop (hsection _)
  | resumeSection sect => exact ho.resumeSection sect
  | resumeCounter c => exact ho.resumeCounter hs.valid.formed c
  | createCounter _ hop => exact absurd hop hcounter
  | align type => exact (ho.align _).fills (s.fills_align _ _)
  | reserve i => exact ho.reserve _
  | store =>
    obtain ⟨n, hfill⟩ | ⟨g, hfill⟩ := s.fills_reserveStorage _ _ _ _ _
    · exact (ho.reserve n).fills hfill
    · exact (ho.passSpace .storage g).fills hfill
  | @moveTo place horg _ hplaces =>
    obtain ⟨c, hc⟩ := ho.exists_current hs.valid.formed (hstarted horg)
    have hhomed := ho.current hc
    refine ho.moveTo fun d hd => ?_
    rw [Layout.ensureSection_of_current hc, hc] at hd
    cases hd
    -- A move to the highest place goes back to one of the counter, any other keeps the section of the position.
    rcases hplaces with hmem | hbases
    · rw [Layout.candidates, hc] at hmem
      exact hhomed.candidates place hmem
    · rw [hbases, Layout.position_of_current hc]
      exact hhomed.position
  | jump => exact (ho.jump _).fills (fills_resolveOrDefer s _ _ _)

theorem Still.labels (h : Still st s t) : s.layout.labels <+: t.layout.labels := by
  rcases h.fills with hfill | heq
  · exact hfill.labels ▸ List.prefix_rfl
  · rw [heq]
    exact s.layout.labels_ensureSection

/-- No section changes its name or its kind. -/
theorem Act.labels (h : Act st s t) : s.layout.labels <+: t.layout.labels := by
  cases h with
  | still h => exact h.labels
  | @createSection name? kind _ =>
    show s.layout.labels <+: (s.layout.createSection name? kind).2.labels
    rw [Layout.labels_createSection]
    exact List.prefix_append ..
  | resumeSection sect => exact (s.layout.labels_resumeSection sect).symm ▸ List.prefix_rfl
  | resumeCounter c => exact (s.layout.labels_resumeCounter c).symm ▸ List.prefix_rfl
  | createCounter name _ => exact (s.layout.labels_createCounter name).symm ▸ s.layout.labels_ensureSection
  | align type => exact (s.fills_align _ _).labels.symm ▸ s.layout.labels_align _
  | reserve i => exact (s.layout.labels_reserve _).symm ▸ s.layout.labels_ensureSection
  | store =>
    obtain ⟨n, hfill⟩ | ⟨g, hfill⟩ := s.fills_reserveStorage _ _ _ _ _
    · exact (hfill.labels.trans (s.layout.labels_reserve n)).symm ▸ s.layout.labels_ensureSection
    · exact (hfill.labels.trans (s.layout.labels_passSpace .storage g)).symm ▸ s.layout.labels_ensureSection
  | moveTo => exact (s.layout.labels_moveTo _).symm ▸ s.layout.labels_ensureSection
  | jump => exact (fills_resolveOrDefer s _ _ _).labels.symm ▸ s.layout.labels_jump _

theorem Acts.labels (h : Acts st s t) : s.layout.labels <+: t.layout.labels := by
  induction h with
  | refl => exact List.prefix_rfl
  | tail _ hact ih => exact ih.trans hact.labels

theorem Acts.ordered (h : Acts st s t) (hs : s.Ready) (hsection : ∀ kind, st.operation ≠ .sectionStart kind)
    (hcounter : st.operation ≠ .counterStart) (hstarted : st.IsOrg → s.layout.labels ≠ [])
    (ho : s.layout.Ordered taken) : t.layout.Ordered taken := by
  induction h with
  | refl => exact ho
  | tail hacts hact ih =>
    refine hact.ordered (Acts.ready hacts hs) hsection hcounter (fun horg hnil => hstarted horg ?_) ih
    exact List.prefix_nil.mp (hnil ▸ Acts.labels hacts)

/-! ### New names -/

theorem Names.of_leads {name : Name} {place : Address} (h : s.Names name place) (hst : s.Leads t) :
    t.Names name place := h.later hst.steps.grows.earlier

theorem Still.ordered_names (h : Still st s t) (ho : s.layout.Ordered s.Names) : t.layout.Ordered t.Names :=
  (h.ordered ho).mono fun _ _ hnames => hnames.of_leads h.leads

/-- A name that is free stands for the place it is defined for. -/
theorem names_definePlace {name : Name} (hfree : ¬ s.symbols.contains name) (place : Address)
    (origin : SymbolOrigin) (location : Location) : (s.definePlace name place origin location).Names name place := by
  have hnone : s.symbols.get? name = none := by simpa [SymbolTable.contains] using hfree
  obtain ⟨t, ht⟩ := @exists_createSymbol? s
    { name, value? := some (.relocatable place), attributes := .label origin 'J' 1, location } hnone
  rw [definePlace, createSymbol, ht]
  exact names_create ht rfl []

/-- A free name is no name of a counter. -/
theorem name?_ne_of_free {l : Layout} (ho : l.Ordered s.Names) {name : Name} (hfree : ¬ s.symbols.contains name)
    (j : Nat) (c : Counter) (hc : l.counters[j]? = some c) : c.name? ≠ some name := by
  intro hname
  obtain ⟨sym, hsym, -⟩ := ho.taken j c name hc hname
  exact hfree (by rw [SymbolTable.contains, hsym]; rfl)

theorem not_mem_labels {l : Layout} {kind : SectionKind} (h : l.privateSection? kind = none) :
    (none, kind) ∉ l.labels := by
  intro hmem
  obtain ⟨sect, hsect, heq⟩ := List.mem_map.mp hmem
  have hno := List.find?_eq_none.mp (Option.map_eq_none_iff.mp h) sect hsect
  simp [(Prod.mk.inj heq).1, (Prod.mk.inj heq).2] at hno

/-- A section or counter is created before its name is defined for its origin, so that is when the name is taken. -/
theorem ordered_definePlace {layout : Layout} (hlead : s.Leads { s with layout }) {name : Name} {place : Address}
    (hname : st.label? = some name) (hfree : ¬ s.symbols.contains name) (hplace : place.LiesIn layout.spaces)
    (origin : SymbolOrigin) (ho : s.layout.Ordered s.Names)
    (hcreate : ∀ taken, s.layout.Ordered taken → taken name place → layout.Ordered taken) :
    ({ s with layout }.definePlace name place origin st.location).layout.Ordered
      ({ s with layout }.definePlace name place origin st.location).Names := by
  have hlabel := @still_createLabel { s with layout } st name hname place hplace origin 'J' 1
  have hnames := @names_definePlace { s with layout } name hfree place origin st.location
  have hlater : s.layout.Ordered ({ s with layout }.definePlace name place origin st.location).Names :=
    ho.mono fun _ _ h => h.of_leads (hlead.trans hlabel.leads)
  exact hlabel.ordered (hcreate _ hlater hnames)

theorem ordered_processSection (st : Statement) (kind : SectionKind) (ho : s.layout.Ordered s.Names) :
    (s.processSection st kind).layout.Ordered (s.processSection st kind).Names := by
  unfold processSection
  split
  · unfold processPrivateSection
    split
    · exact ho.resumeSection _
    · rename_i hprivate
      exact ho.createSection (fun _ hname => nomatch hname) fun _ => not_mem_labels hprivate
  · rename_i name hname
    unfold processNamedSection
    split
    · split
      · exact ho.resumeSection _
      · exact (still_redefinition hname _).ordered_names ho
    · split
      · exact (still_redefinition hname _).ordered_names ho
      · rename_i hfree
        refine ordered_definePlace (leads_layout (s.layout.arranges_createSection (some name) kind)) hname hfree
          (Address.liesIn_of_spaces_nil rfl) .sectionStart ho fun taken htaken hnew => ?_
        refine htaken.createSection (fun n hn => ?_) fun hnone => nomatch hnone
        cases hn
        exact ⟨hnew, name?_ne_of_free ho hfree⟩

theorem ordered_processCounter (hs : s.Ready) (st : Statement) (ho : s.layout.Ordered s.Names) :
    (s.processCounter st).layout.Ordered (s.processCounter st).Names := by
  unfold processCounter
  split
  · exact (@Still.report st s _ (.inl rfl)).ordered_names ho
  · rename_i name hname
    split
    · exact ho.resumeCounter hs.valid.formed _
    · split
      · exact (still_redefinition hname _).ordered_names ho
      · rename_i hfree
        have hformed := (s.layout.arranges_createCounter name).formed hs.valid.formed
        exact ordered_definePlace (leads_layout (s.layout.arranges_createCounter name)) hname hfree
          hformed.liesIn_origin .counterStart ho fun taken htaken hnew =>
            htaken.createCounter hnew (name?_ne_of_free ho.ensureSection hfree)

/-- Every statement keeps the sections and counters in order, with the names that are symbols after it. -/
theorem ordered_process (hs : s.Ready) (st : Statement) (ho : s.layout.Ordered s.Names) :
    (s.process st).layout.Ordered (s.process st).Names := by
  have hlater : s.layout.Ordered (s.process st).Names :=
    ho.mono fun _ _ h => h.of_leads (leads_process hs st)
  cases hop : st.operation with
  | sectionStart kind =>
    unfold process
    rw [hop]
    exact ordered_processSection st kind ho
  | counterStart =>
    unfold process
    rw [hop]
    exact ordered_processCounter hs st ho
  | org operands =>
    have hsection := (@Still.ensure st s).leads.ready hs
    obtain ⟨c, hc⟩ := hs.valid.formed.exists_current
    have hmove : Acts st (s.mapLayout Layout.ensureSection) (s.process st) := by
      unfold process
      rw [hop]
      exact acts_processOrg_ensureSection hs ⟨_, hop⟩ operands
    -- The target is compared with a position that is in a section already.
    exact hmove.ordered hsection (by simp [hop]) (by simp [hop])
      (fun _ => hsection.valid.formed.labels_ne_nil hc) hlater.ensureSection
  | equ | data | instruction | other =>
    refine (acts_process hs st).ordered hs (by simp [hop]) (by simp [hop]) (fun horg => ?_) hlater
    obtain ⟨operands, horg⟩ := horg
    rw [hop] at horg
    cases horg

end Assembly

/-! ## 5. What is in an assembly -/

namespace Layout

variable {l : Layout} {taken : Name → Address → Prop} {i : SectionId} {sect : Section}

/-- Whether every id that a layout holds or finds is one of a section or counter that there is. -/
structure InRange (l : Layout) : Prop where
  current : ∀ id, l.current? = some id → id.index < l.counters.length
  owner : ∀ c ∈ l.counters, c.sectionId.index < l.sections.length
  listed : ∀ sect ∈ l.sections, ∀ id ∈ sect.counters, id.index < l.counters.length
  active : ∀ sect ∈ l.sections, sect.active.index < l.counters.length
  findSection : ∀ n i, l.findSection? n = some i → i.index < l.sections.length
  privateSection : ∀ kind i, l.privateSection? kind = some i → i.index < l.sections.length
  findCounter : ∀ n j, l.findCounter? n = some j → j.index < l.counters.length

/-- A counter is on the list of the section that it names and on no other. -/
theorem Formed.mem_counters_iff (h : l.Formed) {j : CounterId} {c : Counter} (hc : l.counter? j = some c)
    (i : SectionId) : (∃ sect, l.section? i = some sect ∧ j ∈ sect.counters) ↔ i = c.sectionId := by
  constructor
  · rintro ⟨sect, hsect, hmem⟩
    obtain ⟨other, hother, hid⟩ := (h.owned i.index sect hsect).2 j hmem
    rw [counter?, hother] at hc
    cases hc
    exact hid.symm
  · rintro rfl
    obtain ⟨sect, hsect, hmem, -⟩ := h.listed j.index c hc
    exact ⟨sect, hsect, hmem⟩

theorem Ordered.lt_of_mem_sections (h : l.Ordered taken) (hsect : sect ∈ l.sections) :
    sect.id.index < l.sections.length := by
  obtain ⟨i, hi⟩ := List.mem_iff_getElem?.mp hsect
  rw [h.sectionIds i sect hi]
  exact (List.getElem?_eq_some_iff.mp hi).1

theorem Ordered.lt_of_mem_counters (h : l.Ordered taken) {c : Counter} (hc : c ∈ l.counters) :
    c.id.index < l.counters.length := by
  obtain ⟨j, hj⟩ := List.mem_iff_getElem?.mp hc
  rw [h.counterIds j c hj]
  exact (List.getElem?_eq_some_iff.mp hj).1

theorem Ordered.inRange (h : l.Ordered taken) (hf : l.Formed) : l.InRange where
  current := hf.current
  owner c hc := by
    obtain ⟨j, hj⟩ := List.mem_iff_getElem?.mp hc
    obtain ⟨sect, hsect, -⟩ := hf.listed j c hj
    exact (List.getElem?_eq_some_iff.mp hsect).1
  listed sect hsect id hid := by
    obtain ⟨i, hi⟩ := List.mem_iff_getElem?.mp hsect
    obtain ⟨c, hc, -⟩ := (hf.owned i sect hi).2 id hid
    exact (List.getElem?_eq_some_iff.mp hc).1
  active sect hsect := by
    obtain ⟨i, hi⟩ := List.mem_iff_getElem?.mp hsect
    exact hf.active i sect hi
  findSection n i hi := by
    obtain ⟨sect, hsect, rfl⟩ := Option.map_eq_some_iff.mp hi
    exact h.lt_of_mem_sections (List.mem_of_find?_eq_some hsect)
  privateSection kind i hi := by
    obtain ⟨sect, hsect, rfl⟩ := Option.map_eq_some_iff.mp hi
    exact h.lt_of_mem_sections (List.mem_of_find?_eq_some hsect)
  findCounter n j hj := by
    obtain ⟨c, hc, rfl⟩ := Option.map_eq_some_iff.mp hj
    exact h.lt_of_mem_counters (List.mem_of_find?_eq_some hc)

/-- The first counter of a section has its name and begins at its start. -/
theorem Ordered.exists_first (h : l.Ordered taken) (hsect : l.section? i = some sect) :
    ∃ first rest c, sect.counters = first :: rest ∧ l.counter? first = some c ∧ c.name? = sect.name? ∧
      c.start? = none ∧ c.origin = .start i := by
  obtain ⟨first, hfirst, c, hc, hname, hstart, horigin⟩ := h.first i.index sect hsect
  obtain ⟨rest, hrest⟩ := List.head?_eq_some_iff.mp hfirst
  exact ⟨first, rest, c, hrest, hc, hname, hstart, horigin⟩

/-- As no two counters have the same name, neither have two sections. -/
theorem Ordered.section_unique (h : l.Ordered taken) {i j : SectionId} {a b : Section} {n : Name}
    (ha : l.section? i = some a) (hb : l.section? j = some b) (han : a.name? = some n) (hbn : b.name? = some n) :
    i = j := by
  -- Both have the names of their first counters, which are the same counter then and begin at the same place.
  obtain ⟨first, -, c, -, hc, hcname, -, hcorigin⟩ := h.exists_first ha
  obtain ⟨first', -, d, -, hd, hdname, -, hdorigin⟩ := h.exists_first hb
  have hindex := h.distinct first.index first'.index c d n hc hd (hcname.trans han) (hdname.trans hbn)
  have hcd : c = d := by
    unfold counter? at hc hd
    rw [hindex, hd] at hc
    exact (Option.some.inj hc).symm
  have hstarts : Address.start i = Address.start j := hcorigin.symm.trans (hcd ▸ hdorigin)
  cases hstarts
  rfl

end Layout

namespace Assembly

/-- What holds of the sections and counters of an assembly, and of the symbols that have their names. -/
structure Inventory (s : Assembly) : Prop where
  sectionIds : ∀ i sect, s.layout.section? i = some sect → sect.id = i
  counterIds : ∀ j c, s.layout.counter? j = some c → c.id = j
  /-- A counter is on the list of one section, which is the one it names, and is there once. -/
  listed : ∀ j c, s.layout.counter? j = some c → ∀ i,
    (∃ sect, s.layout.section? i = some sect ∧ j ∈ sect.counters) ↔ i = c.sectionId
  nodup : ∀ i sect, s.layout.section? i = some sect → sect.counters.Nodup
  active : ∀ i sect, s.layout.section? i = some sect → sect.active ∈ sect.counters
  /-- There is a first counter in a section, at its start. -/
  first : ∀ i sect, s.layout.section? i = some sect → ∃ id rest c, sect.counters = id :: rest ∧
    s.layout.counter? id = some c ∧ c.start? = none ∧ c.origin = .start i
  /-- Every other one begins with a space, which no counter shares with another. -/
  further : ∀ i sect, s.layout.section? i = some sect → ∀ id ∈ sect.counters.tail, ∃ c k,
    s.layout.counter? id = some c ∧ c.start? = some k ∧ s.layout.spaces.kind? k = some .counterStart ∧
      c.origin = (Address.start i).addSpace k 1
  starts : ∀ i j c d k, s.layout.counter? i = some c → s.layout.counter? j = some d → c.start? = some k →
    d.start? = some k → i = j
  places : ∀ j c, s.layout.counter? j = some c → ∀ x ∈ c.origin :: c.candidates, x.bases = [(c.sectionId, 1)]
  sectionNames : ∀ i j a b n, s.layout.section? i = some a → s.layout.section? j = some b → a.name? = some n →
    b.name? = some n → i = j
  counterNames : ∀ i j c d n, s.layout.counter? i = some c → s.layout.counter? j = some d → c.name? = some n →
    d.name? = some n → i = j
  privates : ∀ i j a b, s.layout.section? i = some a → s.layout.section? j = some b → a.name? = none →
    b.name? = none → a.kind = b.kind → i = j
  sectionSymbols : ∀ i sect n, s.layout.section? i = some sect → sect.name? = some n → s.Names n (.start i)
  counterSymbols : ∀ j c n, s.layout.counter? j = some c → c.name? = some n → s.Names n c.origin
  inRange : s.layout.InRange

theorem inventory {s : Assembly} (h : s.layout.Ordered s.Names) (hf : s.layout.Formed) : s.Inventory where
  sectionIds i := h.sectionIds i.index
  counterIds j := h.counterIds j.index
  listed _ _ := hf.mem_counters_iff
  nodup i sect hsect := (hf.owned i.index sect hsect).1
  active i := h.active i.index
  first i sect hsect := by
    obtain ⟨id, rest, c, hlist, hc, -, hstart, horigin⟩ := h.exists_first hsect
    exact ⟨id, rest, c, hlist, hc, hstart, horigin⟩
  further i sect hsect id hid := by
    obtain ⟨c, k, hc, hk, horigin⟩ := hf.begun i.index sect hsect id hid
    exact ⟨c, k, hc, hk, (hf.places id.index c hc).start k hk, horigin⟩
  starts i j c d k hc hd hck hdk := congrArg CounterId.mk (hf.starts i.index j.index c d k hc hd hck hdk)
  places j c hc x hx := by
    have hhomed := h.homed j.index c hc
    rcases List.mem_cons.mp hx with rfl | hx
    · exact hhomed.origin
    · exact hhomed.candidates x hx
  sectionNames _ _ _ _ _ := h.section_unique
  counterNames i j c d n hc hd hcn hdn := congrArg CounterId.mk (h.distinct i.index j.index c d n hc hd hcn hdn)
  privates i j a b ha hb han hbn hkind := by
    refine congrArg SectionId.mk (h.single i.index j.index a.kind ?_ ?_)
    · exact Layout.getElem?_labels.mpr ⟨a, ha, han, rfl⟩
    · exact Layout.getElem?_labels.mpr ⟨b, hb, hbn, hkind.symm⟩
  sectionSymbols i sect n hsect hn := by
    obtain ⟨id, -, c, -, hc, hname, -, horigin⟩ := h.exists_first hsect
    exact horigin ▸ h.taken id.index c n hc (hname.trans hn)
  counterSymbols j := h.taken j.index
  inRange := h.inRange hf

end Assembly

/-! ## 6. Sessions -/

namespace Session

open Assembly

variable {s : Session}

/-- Other operations than statements leave sections and counters alone. -/
theorem fills_operate (hs : s.assembly.Ready) {o : Operation} (ho : ∀ st, o ≠ .command (.process st)) :
    s.assembly.layout.Fills (s.operate o).assembly.layout := by
  cases o with
  | takeDiagnostics => exact .refl _
  | command c =>
    by_cases hfinish : c = .finish
    · rw [hfinish]
      exact fills_finish hs
    · exact fills_perform (fun st heq => ho st (congrArg Operation.command heq)) hfinish

theorem ordered_operate (hs : s.assembly.Ready) (hordered : s.assembly.layout.Ordered s.assembly.Names)
    (o : Operation) : (s.operate o).assembly.layout.Ordered (s.operate o).assembly.Names := by
  by_cases hst : ∃ st, o = .command (.process st)
  · obtain ⟨st, rfl⟩ := hst
    exact ordered_process hs st hordered
  · exact (hordered.fills (fills_operate hs fun st heq => hst ⟨st, heq⟩)).mono fun n place h =>
      h.later (Turns.earlier (turns_operate hs o).1)

theorem ordered_operateAll (hs : s.assembly.Ready) (hordered : s.assembly.layout.Ordered s.assembly.Names)
    (operations : List Operation) :
    (s.operateAll operations).assembly.layout.Ordered (s.operateAll operations).assembly.Names := by
  induction operations generalizing s with
  | nil => exact hordered
  | cons o rest ih => exact ih (turns_operate hs o).2.1 (ordered_operate hs hordered o)

theorem ordered_performAll (settings : Settings) (commands : List Command) :
    let s := ((new settings).performAll commands).assembly
    s.layout.Ordered s.Names := by
  have hall := ordered_operateAll (s := new settings) (ready_new settings) (.new settings.counterAlignment)
    (commands.map .command)
  rw [operateAll, List.foldl_map] at hall
  exact hall

theorem labels_operate (hs : s.assembly.Ready) (o : Operation) :
    s.assembly.layout.labels <+: (s.operate o).assembly.layout.labels := by
  by_cases hst : ∃ st, o = .command (.process st)
  · obtain ⟨st, rfl⟩ := hst
    exact (acts_process hs st).labels
  · have hfill := fills_operate hs fun st heq => hst ⟨st, heq⟩
    exact hfill.labels ▸ List.prefix_rfl

theorem labels_operateAll (hs : s.assembly.Ready) (operations : List Operation) :
    s.assembly.layout.labels <+: (s.operateAll operations).assembly.layout.labels := by
  induction operations generalizing s with
  | nil => exact List.prefix_rfl
  | cons o rest ih => exact (labels_operate hs o).trans (ih (turns_operate hs o).2.1)

theorem labels_stateAfter (settings : Settings) (operations more : List Operation) :
    (stateAfter settings operations).layout.labels <+: (stateAfter settings (operations ++ more)).layout.labels := by
  rw [stateAfter_append]
  exact labels_operateAll (ready_stateAfter settings operations) more

/-- At all times the sections and counters are in order, and a section keeps its name and its kind. -/
theorem inventory_of_operations (settings : Settings) (operations more : List Operation) :
    (stateAfter settings operations).Inventory ∧
      ∀ i sect, (stateAfter settings operations).layout.section? i = some sect →
        ∃ later, (stateAfter settings (operations ++ more)).layout.section? i = some later ∧
          later.name? = sect.name? ∧ later.kind = sect.kind := by
  have hordered : (stateAfter settings operations).layout.Ordered (stateAfter settings operations).Names :=
    ordered_operateAll (s := new settings) (ready_new settings) (.new settings.counterAlignment) operations
  refine ⟨inventory hordered (ready_stateAfter settings operations).valid.formed, fun i sect hsect => ?_⟩
  obtain ⟨further, hfurther⟩ := labels_stateAfter settings operations more
  have hbefore : (stateAfter settings operations).layout.labels[i.index]? = some (sect.name?, sect.kind) :=
    Layout.getElem?_labels.mpr ⟨sect, hsect, rfl, rfl⟩
  refine Layout.getElem?_labels.mp ?_
  rw [← hfurther, List.getElem?_append_left (List.getElem?_eq_some_iff.mp hbefore).1]
  exact hbefore

/-- The name of a section stands for its start, and the section keeps its kind. -/
theorem inventory_of_operations_section :
    let s := stateAfter {} [.command (.process Scaled.sectionStart)]
    s.layout.section? ⟨0⟩ = some ⟨⟨0⟩, some (.ofString "S"), .executable, [⟨0⟩], ⟨0⟩⟩ ∧
      s.Names (.ofString "S") (.start ⟨0⟩) ∧
      ∃ later, (stateAfter {} [.command (.process Scaled.sectionStart), .command .finish]).layout.section? ⟨0⟩ =
        some later ∧ later.kind = .executable := by
  intro s
  have hsect : s.layout.section? ⟨0⟩ = some ⟨⟨0⟩, some (.ofString "S"), .executable, [⟨0⟩], ⟨0⟩⟩ := by
    rw [show s = namedSection from stateAfter_sectionStart]
    rfl
  obtain ⟨hinventory, hkept⟩ :=
    inventory_of_operations {} [.command (.process Scaled.sectionStart)] [.command .finish]
  obtain ⟨later, hlater, -, hkind⟩ := hkept _ _ hsect
  exact ⟨hsect, hinventory.sectionSymbols _ _ _ hsect rfl, later, hlater, hkind⟩

end Session

end Assembler
