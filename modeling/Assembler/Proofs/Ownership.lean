import Assembler.Proofs.Climb
import Assembler.Proofs.Course
/-!
The spaces of a counter.

A counter passes spaces of its own, and it is moved to its own places only. So its places are in terms of its own
spaces, and so is the length of each of them (`Layout.Separate`, `Spaces.Separate`). That holds at every moment of a
session, together with what is known of the jobs for spaces: padding is to the boundary of a type, and a further counter
starts on its boundary (`Moment.Proper`, `Moment.Proper.course`).
-/

namespace Assembler

open Assembly

/-! ## 1. Lengths -/

namespace Spaces

variable {a b : Spaces} {id : CounterId} {k : SpaceId}

/-- Whether lengths are in terms of spaces of the same counter. -/
def Separate (a : Spaces) : Prop :=
  ∀ k length, a.length? k = some length → ∀ t ∈ length.spaces.map Prod.fst, a.counter? t = a.counter? k

theorem exists_counter?_of_length? {length : Length} (h : a.length? k = some length) :
    ∃ id, a.counter? k = some id := by
  obtain ⟨space, hspace, -⟩ := Option.bind_eq_some_iff.mp h
  exact ⟨space.counter, Option.map_eq_some_iff.mpr ⟨space, hspace, rfl⟩⟩

/-- A further length does not disturb the others. -/
theorem Separate.later (h : a.Separate) (hab : a.Earlier b)
    (hnew : ∀ k length, b.length? k = some length → a.length? k = some length ∨
      ∀ t ∈ length.spaces.map Prod.fst, b.counter? t = b.counter? k) : b.Separate := by
  intro k length hlength
  rcases hnew k length hlength with hold | hterms
  · intro t ht
    obtain ⟨id, hid⟩ := exists_counter?_of_length? hold
    rw [hab.counter? hid, hab.counter? ((h k length hold t ht).trans hid)]
  · exact hterms

end Spaces

namespace Address

variable {a : Spaces} {id : CounterId} {x y : Address}

theorem OwnedBy.normalize (h : x.OwnedBy a id) (ha : a.Separate) : (x.normalize a).OwnedBy a id :=
  Spaces.forall_keys_substitute (fun k length hk hlength t ht => (ha k length hlength t ht).trans hk) h

/-- The way between places of a counter is in terms of its spaces. -/
theorem OwnedBy.between (hx : x.OwnedBy a id) (hy : y.OwnedBy a id) (ha : a.Separate) :
    ∀ t ∈ (Length.between a x y).spaces.map Prod.fst, a.counter? t = some id :=
  (hx.addScaled hy (-1)).normalize ha

end Address

/-! ## 2. Places -/

/-- Whether all places that a counter may have been at are in terms of the spaces of one counter. -/
def Counter.OwnedBy (a : Spaces) (id : CounterId) (c : Counter) : Prop := ∀ x ∈ c.candidates, x.OwnedBy a id

namespace Counter.OwnedBy

variable {a b : Spaces} {id : CounterId} {k : SpaceId} {c : Counter}

theorem of_position (hmarks : ∀ x ∈ c.marks, x.OwnedBy a id) (hposition : c.position.OwnedBy a id) :
    c.OwnedBy a id := by
  intro x hx
  rcases List.mem_append.mp hx with hx | hx
  · exact hmarks x hx
  · exact List.mem_singleton.mp hx ▸ hposition

theorem marks (h : c.OwnedBy a id) : ∀ x ∈ c.marks, x.OwnedBy a id := fun x hx => h x (List.mem_append_left _ hx)

theorem position (h : c.OwnedBy a id) : c.position.OwnedBy a id :=
  h _ (List.mem_append_right _ (List.mem_singleton_self _))

theorem later (h : c.OwnedBy a id) (hab : a.Earlier b) : c.OwnedBy b id := fun x hx => (h x hx).later hab

theorem advance (h : c.OwnedBy a id) (n : Int32) : (c.advance n).OwnedBy a id :=
  .of_position h.marks (h.position.addOffset n)

theorem pass (h : c.OwnedBy a id) (hk : a.counter? k = some id) : (c.pass k).OwnedBy a id :=
  .of_position h.marks (h.position.addSpace hk 1)

theorem mark (h : c.OwnedBy a id) (spaces : Spaces) : (c.mark spaces).OwnedBy a id := by
  refine .of_position (fun x hx => h x (mem_candidates_of_mark hx)) ?_
  rw [Layout.position_mark]
  exact h.position

/-- A counter that is moved keeps the place that it leaves. -/
theorem moveTo (h : c.OwnedBy a id) (spaces : Spaces) {place : Address} (hplace : place.OwnedBy a id) :
    OwnedBy a id { c.mark spaces with position := place, tail? := none } :=
  .of_position (h.mark spaces).marks hplace

end Counter.OwnedBy

/-! ## 3. Layouts -/

namespace Layout

variable {l l' : Layout} {id : CounterId} {job? : Option Job}

/-- Whether the places of every counter are in terms of its spaces. -/
def Separate (l : Layout) : Prop :=
  ∀ (i : Nat) (c : Counter), l.counters[i]? = some c → c.OwnedBy l.spaces ⟨i⟩

namespace Separate

theorem new (boundary : Nat) : (Layout.new boundary).Separate := fun _ _ h => nomatch h

theorem later (h : l.Separate) (hcounters : l'.counters = l.counters) (hspaces : l.spaces.Earlier l'.spaces) :
    l'.Separate := by
  intro i c hc
  rw [hcounters] at hc
  exact (h i c hc).later hspaces

theorem current (h : l.Separate) (hid : l.current? = some id) {c : Counter} (hc : l.current = some c) :
    c.OwnedBy l.spaces id := by
  rw [Layout.current, hid] at hc
  exact h id.index c hc

theorem position (h : l.Separate) (hid : l.current? = some id) : l.position.OwnedBy l.spaces id := by
  unfold Layout.position
  cases hc : l.current with
  | none => exact Address.ownedBy_of_spaces_nil rfl
  | some c => exact (h.current hid hc).position

theorem candidates (h : l.Separate) (hid : l.current? = some id) : ∀ x ∈ l.candidates, x.OwnedBy l.spaces id := by
  unfold Layout.candidates
  cases hc : l.current with
  | none => exact List.forall_mem_nil _
  | some c => exact h.current hid hc

/-- A change of the counter in use while spaces may be added. -/
theorem modifyCurrent (h : l.Separate) {b : Spaces} (hb : l.spaces.Earlier b) {f : Counter → Counter}
    (hf : ∀ id c, l.current? = some id → c.OwnedBy b id → (f c).OwnedBy b id) :
    (({ l with spaces := b } : Layout).modifyCurrent f).Separate := by
  have hlater : ({ l with spaces := b } : Layout).Separate := h.later rfl hb
  unfold Layout.modifyCurrent
  split
  · rename_i id hid
    intro i c hc
    obtain ⟨d, hd, rfl⟩ := getElem?_modify_eq_some hc
    split
    · rename_i hi
      subst hi
      exact hf id d hid (hlater id.index d hd)
    · exact hlater i d hd
  · exact hlater

theorem createSection (h : l.Separate) (name? : Option Name) (kind : SectionKind) :
    (l.createSection name? kind).2.Separate := by
  intro i c hc
  rcases getElem?_concat_eq_some.mp hc with hc | ⟨-, rfl⟩
  · exact h i c hc
  · exact .of_position (List.forall_mem_nil _) (Address.ownedBy_of_spaces_nil rfl)

theorem ensureSection (h : l.Separate) : l.ensureSection.Separate := by
  unfold Layout.ensureSection
  split
  · exact h
  · exact h.createSection none .executable

theorem resumeSection (h : l.Separate) (s : SectionId) : (l.resumeSection s).Separate := by
  unfold Layout.resumeSection
  split <;> exact h

theorem resumeCounter (h : l.Separate) (c : CounterId) : (l.resumeCounter c).Separate := by
  unfold Layout.resumeCounter
  split <;> exact h

/-- A further counter begins behind a space of its own. -/
theorem createCounter (h : l.Separate) (name : Name) : (l.createCounter name).2.Separate := by
  obtain ⟨-, heq⟩ | ⟨s, -, heq⟩ := l.createCounter_cases name <;> rw [heq]
  · exact h.ensureSection
  · intro i c hc
    rcases getElem?_addCounter.mp hc with hc | ⟨rfl, rfl⟩
    · exact (h.ensureSection i c hc).later (l.ensureSection.earlier_addCounter name s)
    · refine .of_position (List.forall_mem_nil _) (Address.OwnedBy.addSpace ?_ ?_ 1)
      · exact Address.ownedBy_of_spaces_nil rfl
      · exact Spaces.counter?_create _ _ _ _

theorem reserve (h : l.Separate) (n : Int32) : (l.reserve n).Separate :=
  h.ensureSection.modifyCurrent (.refl _) fun _ _ _ hc => hc.advance n

theorem passSpace (h : l.Separate) (kind : SpaceKind) (g : Alignment) : (l.passSpace kind g).2.Separate := by
  obtain ⟨id, hid⟩ := l.exists_current_ensureSection
  rw [passSpace_eq l kind g hid]
  refine h.ensureSection.modifyCurrent (l.ensureSection.spaces.earlier_create kind id _) fun i c hi hc => hc.pass ?_
  obtain rfl : i = id := Option.some.inj (hi.symm.trans hid)
  exact Spaces.counter?_create _ _ _ _

theorem align (h : l.Separate) (a : Alignment) : (l.align a).2.Separate := by
  rcases l.align_outcome a with heq | ⟨n, heq⟩ | heq <;> rw [heq]
  · exact h
  · exact h.ensureSection.reserve n
  · exact h.ensureSection.passSpace _ _

theorem moveTo (h : l.Separate) (hid : l.current? = some id) {place : Address} (hplace : place.OwnedBy l.spaces id) :
    (l.moveTo place).Separate := by
  unfold Layout.moveTo
  rw [ensureSection_of_current? hid]
  refine h.modifyCurrent (.refl _) fun i c hi hc => hc.moveTo _ ?_
  obtain rfl : i = id := Option.some.inj (hi.symm.trans hid)
  exact hplace

theorem jump (h : l.Separate) (kind : SpaceKind) : (l.jump kind).2.Separate :=
  passSpace (h.ensureSection.modifyCurrent (.refl _) fun _ _ _ hc => hc.mark _) kind .any

theorem changes (h : l.Separate) (hchange : l.Changes l' job?) : l'.Separate := by
  cases hchange with
  | ensureSection => exact h.ensureSection
  | createSection name? kind => exact h.createSection name? kind
  | resumeSection s => exact h.resumeSection s
  | resumeCounter c => exact h.resumeCounter c
  | createCounter name => exact h.createCounter name
  | reserve n => exact h.reserve n
  | align type heq | pad type _ heq =>
    have haligned := h.align type.alignment
    rw [heq] at haligned
    exact haligned
  | store e g _ => exact h.passSpace _ g
  | moveTo hid _ hplace => exact h.moveTo hid (hplace.elim (h.candidates hid _) id)
  | jump target boundary offset _ => exact h.jump _
  | jumpToHighest hid _ => exact h.jump _

end Separate

theorem counter?_passSpace (l : Layout) (kind : SpaceKind) (g : Alignment) :
    (l.passSpace kind g).2.spaces.counter? (l.passSpace kind g).1 = l.ensureSection.current? := by
  obtain ⟨id, hid⟩ := l.exists_current_ensureSection
  rw [passSpace_eq l kind g hid, (spaces_modifyCurrent _ _).1, hid]
  exact Spaces.counter?_create _ _ _ _

/-- A move starts from a place of the counter that its space belongs to. -/
theorem Separate.position_jump (h : l.Separate) (hid : (l.jump .jump).2.spaces.counter? (l.jump .jump).1 = some id) :
    l.position.OwnedBy l.spaces id := by
  cases hc : l.current? with
  | none =>
    refine Address.ownedBy_of_spaces_nil ?_
    rw [Layout.position, Layout.current, hc]
    rfl
  | some i =>
    have hcurrent : (l.ensureSection.modifyCurrent (·.mark l.ensureSection.spaces)).current? = some i := by
      rw [(spaces_modifyCurrent _ _).2, ensureSection_of_current? hc, hc]
    have hcounter := (l.ensureSection.modifyCurrent (·.mark l.ensureSection.spaces)).counter?_passSpace .jump .any
    rw [ensureSection_of_current? hcurrent, hcurrent] at hcounter
    obtain rfl : i = id := Option.some.inj (hcounter.symm.trans hid)
    exact h.position hc

theorem alignment_of_align {alignment : Alignment} {p : Padding} (h : l.align alignment = (some p, l')) :
    p.alignment = alignment := by
  rcases l.align_outcome alignment with heq | ⟨n, heq⟩ | heq <;> rw [heq] at h <;> cases h
  rfl

end Layout

/-! ## 4. Jobs -/

/-- Whether a rule for a space is as statements and the end of the source set it, when further counters start on
`start`. -/
def SpaceRule.Proper (start : Alignment) (a : Spaces) (k : SpaceId) : SpaceRule → Prop
  | .padding _ _ alignment => alignment.Dyadic
  | .jump _ position _ _ => ∀ id, a.counter? k = some id → position.OwnedBy a id
  | .counterStart _ _ alignment => alignment = start
  | .storage _ | .jumpToHighest _ _ => True

def Task.Proper (start : Alignment) (a : Spaces) : Task → Prop
  | .space k rule => rule.Proper start a k
  | _ => True

theorem Task.Proper.later {start : Alignment} {a b : Spaces} {task : Task} (h : task.Proper start a)
    (hab : a.Earlier b) (hscope : task.Scoped a) : task.Proper start b := by
  cases task with
  | space k rule =>
    cases rule with
    | jump target position boundary offset =>
      intro id hid
      -- The space has belonged to the same counter before.
      obtain ⟨space, hspace, -⟩ := Option.map_eq_some_iff.mp hscope.1
      have hold : a.counter? k = some space.counter := Option.map_eq_some_iff.mpr ⟨space, hspace, rfl⟩
      obtain rfl : space.counter = id := Option.some.inj ((hab.counter? hold).symm.trans hid)
      exact (h space.counter hold).later hab
    | storage | padding | jumpToHighest | counterStart => exact h
  | value | length | scale | integer | check => trivial

theorem Layout.Changes.counterAlignment {l l' : Layout} {job? : Option Job} (h : l.Changes l' job?) :
    l'.counterAlignment = l.counterAlignment := by
  cases h with
  | ensureSection => exact l.counterAlignment_ensureSection
  | createSection => rfl
  | resumeSection s => exact l.counterAlignment_resumeSection s
  | resumeCounter c => exact l.counterAlignment_resumeCounter c
  | createCounter name => exact l.counterAlignment_createCounter name
  | reserve n => exact l.counterAlignment_reserve n
  | align type heq | pad type _ heq =>
    have haligned := l.counterAlignment_align type.alignment
    rw [heq] at haligned
    exact haligned
  | store e g _ => exact l.counterAlignment_passSpace .storage g
  | moveTo => exact l.counterAlignment_moveTo _
  | jump => exact l.counterAlignment_jump .jump
  | jumpToHighest => exact l.counterAlignment_jump .jumpToHighest

/-- The job that a change leaves is proper. -/
theorem Layout.Separate.proper_changes {l l' : Layout} {job? : Option Job} (h : l.Separate) (hl : l.Formed)
    (hchange : l.Changes l' job?) (start : Alignment) :
    ∀ job, job? = some job → job.task.Proper start l'.spaces := by
  have hearlier := (hchange.arranges hl).grows.earlier
  intro job hjob
  cases hchange with
  | ensureSection | createSection | resumeSection | resumeCounter | createCounter | reserve | align | moveTo =>
    cases hjob
  | @pad type p _ _ _ heq =>
    cases hjob
    show p.alignment.Dyadic
    rw [alignment_of_align heq]
    exact type.dyadic_alignment
  | store => cases hjob; trivial
  | jumpToHighest => cases hjob; trivial
  | jump target boundary offset _ =>
    cases hjob
    exact fun id hid => (h.position_jump hid).later hearlier

namespace Assembly

variable {s t u : Assembly} {job : Job} {k : SpaceId} {length : Length} {f : Frame}

theorem length?_of_establish {d : Definition} (h : (s.establish d).layout.spaces.length? k = some length) :
    s.layout.spaces.length? k = some length ∨ d = .space k length := by
  unfold establish at h
  split at h
  · exact .inl h
  · rename_i t ht
    have hdefine : t.layout.spaces.length? k = some length := by
      split at h <;> exact h
    cases d with
    | space space given =>
      obtain ⟨b, hb, rfl⟩ := Option.map_eq_some_iff.mp ht
      rw [show _ = b.length? k from rfl, Spaces.length?_of_resolve? hb] at hdefine
      split at hdefine
      · cases hdefine
        exact .inr (by rw [‹k = space›])
      · exact .inl hdefine
    | nothing => cases ht
    | value | length | scale | integer =>
      obtain ⟨_, -, rfl⟩ := Option.map_eq_some_iff.mp ht
      exact .inl hdefine

/-- Whether the attempt at a job gives a length to a space, or the job fails and the space gets none. -/
def Gives (s : Assembly) (job : Job) (k : SpaceId) (length : Length) : Prop :=
  ∃ rule, job.task = .space k rule ∧
    ((s.attemptSpace k rule job.frame).value? = some length ∨ length = .zero)

theorem Does.gives (h : s.Does job u) (hlength : u.layout.spaces.length? k = some length) :
    s.layout.spaces.length? k = some length ∨ s.Gives job k length := by
  obtain ⟨t, d, hst, hval, hproduct, rfl⟩ := h.exists_establish
  rcases length?_of_establish hlength with hold | rfl
  · exact .inl (hst.layout ▸ hold)
  · right
    obtain ⟨task, frame⟩ := job
    cases task with
    | space k' rule =>
      cases hproduct
      refine ⟨rule, rfl, hval.imp (fun hval => ?_) fun hval => by cases hval; rfl⟩
      obtain ⟨_, hattempt, heq⟩ := Evaluation.exists_of_value?_map hval
      cases heq
      exact hattempt
    | value | length | scale | integer | check => cases hproduct

/-- Moves lead to targets in the counter of the space only. -/
theorem within_of_attemptTarget {space : Space} (hspace : s.layout.spaces.get? k = some space) {target : Expr}
    {position x : Address} (h : s.attemptTarget k target position f = .resolved x) :
    x.within s.layout.spaces space.counter := by
  obtain ⟨v, -, hx⟩ := Evaluation.andThen_eq_resolved.mp h
  cases v with
  | absolute n => cases hx
  | relocatable y =>
    dsimp only at hx
    split at hx
    · rename_i haccepted
      split at hx
      · cases hx
      · cases hx
        have hall := haccepted.2
        rw [hspace] at hall
        exact hall
    · cases hx

/-- A target in the counter is reached by a length in terms of its spaces. -/
theorem separate_attemptJump (hs : s.WellFormed) (hf : f.Scoped s.layout.spaces) {space : Space}
    (hspace : s.layout.spaces.get? k = some space) {target : Expr} {position : Address} {boundary : Nat}
    {offset : Int32} (hposition : position.OwnedBy s.layout.spaces space.counter) (ha : s.layout.spaces.Separate)
    (h : (s.attemptSpace k (.jump target position boundary offset) f).value? = some length) :
    ∀ t ∈ length.spaces.map Prod.fst, s.layout.spaces.counter? t = some space.counter := by
  rcases Evaluation.value?_andThen h with rfl | ⟨x, hx, hlength⟩
  · exact List.forall_mem_nil _
  · obtain ⟨place, hplace, rfl⟩ := Evaluation.exists_of_value?_map hlength
    have hlies := liesIn_attemptTarget hs.inScope hf hx
    have hwithin := within_of_attemptTarget hspace hx
    have howned : place.OwnedBy s.layout.spaces space.counter :=
      .of_roundUp hlies hs.inScope.closed hwithin (Evaluation.value?_ofExcept.mp hplace)
    exact (howned.addOffset offset).between hposition ha

/-- A length is in terms of spaces of the counter that the space belongs to. -/
theorem Gives.separate (h : s.Gives job k length) (hs : s.WellFormed) (hscope : job.Scoped s.layout.spaces)
    {start : Alignment} (hproper : job.task.Proper start s.layout.spaces) (ha : s.layout.spaces.Separate) :
    ∃ id, s.layout.spaces.counter? k = some id ∧
      ∀ t ∈ length.spaces.map Prod.fst, s.layout.spaces.counter? t = some id := by
  obtain ⟨rule, htask, hval⟩ := h
  have hscoped := hscope.task
  rw [htask] at hscoped hproper
  obtain ⟨space, hspace, -⟩ := Option.map_eq_some_iff.mp hscoped.1
  refine ⟨space.counter, Option.map_eq_some_iff.mpr ⟨space, hspace, rfl⟩, ?_⟩
  rcases hval with hval | rfl
  · by_cases hjump : rule.kind = .jump
    · cases rule with
      | jump target position boundary offset =>
        have hspaces := separate_attemptJump hs hscope.frame hspace (hproper space.counter ?_) ha hval
        · exact hspaces
        · exact Option.map_eq_some_iff.mpr ⟨space, hspace, rfl⟩
      | storage | padding | jumpToHighest | counterStart => cases hjump
    · -- Only moves to targets are given lengths in terms of spaces.
      have hsound := sound_attemptSpace hs.inScope hs.acyclic hscope.frame hscoped.1 hscoped.2 hval
      have hnil : length.spaces = [] := hsound.plain fun hkind => hjump (Option.some.inj (hscoped.1.symm.trans hkind))
      rw [hnil]
      exact List.forall_mem_nil _
  · exact List.forall_mem_nil _

end Assembly

/-! ## 5. Steps -/

namespace Moment

variable {m m' : Moment} {settings : Settings} {k : SpaceId} {length : Length}

/-- A space gets its length when the job at hand is done. -/
theorem Completion.gives (h : Completion m m') (hlength : m'.state.layout.spaces.length? k = some length) :
    m.state.layout.spaces.length? k = some length ∨
      ∃ x, m.hand = x :: m'.hand ∧ m.state.Gives x.2 k length := by
  rcases h with h | h
  · cases h with
    | @settle s hand id? job phase =>
      rcases settle_outcome s id? job with hdoes | ⟨waiting, -, -, heq⟩
      · exact (hdoes.gives hlength).imp_right fun hgives => ⟨_, rfl, hgives⟩
      · have hsame : (s.settle id? job).layout = s.layout := by
          rw [heq]
          cases id? <;> rfl
        exact .inl (hsame ▸ hlength)
    | pick | skip | stall | resume => exact .inl hlength
  · cases h with
    | place | close | choose | clear => exact .inl hlength
    | explain => exact .inl ((alike_explain _ _ _).layout ▸ hlength)
    | conclude explained _ _ _ hexplained =>
      exact ((conclude_outcome hexplained _).gives hlength).imp_right fun hgives => ⟨_, rfl, hgives⟩

/-- The lengths of spaces change with the jobs that are done only. -/
theorem Valid.gives (hv : m.Valid) (h : Course m m') (hlength : m'.state.layout.spaces.length? k = some length) :
    m.state.layout.spaces.length? k = some length ∨
      ∃ x, m.hand = x :: m'.hand ∧ m.state.Gives x.2 k length := by
  cases h with
  | complete h => exact Completion.gives h hlength
  | change h => exact .inl (((h.arranges hv.formed).grows.length? k).symm.trans hlength)
  | still _ hlayout => exact .inl (hlayout ▸ hlength)
  | take => exact .inl hlength

/-- A statement that leaves the layout alone has no job for a space. -/
theorem Progress.carries {job : Job} (h : Progress m m') (hlayout : m'.state.layout = m.state.layout)
    (hc : m'.Carries job) : m.Carries job ∨ ∀ k rule, job.task ≠ .space k rule := by
  have fresh : ∀ {jobs : List (Option Nat × Job)}, m'.hand = m.hand ++ jobs →
      m'.state.pendings = m.state.pendings → (∀ x ∈ jobs, ∀ k rule, x.2.task ≠ .space k rule) →
      m.Carries job ∨ ∀ k rule, job.task ≠ .space k rule := by
    intro jobs hhand hpendings hjobs
    rcases hc with ⟨x, hx, rfl⟩ | ⟨id, p, hp, rfl⟩
    · rw [hhand] at hx
      exact (List.mem_append.mp hx).imp (fun hx => .inl ⟨x, hx, rfl⟩) (hjobs x)
    · rw [hpendings] at hp
      exact .inl (.inr ⟨id, p, hp, rfl⟩)
  cases h with
  | report d => exact .inl (hc.of_subset (alike_addDiagnostic _ d).pendings (List.Subset.refl _))
  | @arrange s hand layout job? ha =>
    refine fresh rfl rfl fun x hx _ _ _ => ?_
    obtain ⟨job, hjob, rfl⟩ := List.mem_map.mp hx
    -- A job would be for a new space, and there is none.
    obtain ⟨hscope, k, rule, htask, hk⟩ := ha.job job (Option.mem_toList.mp hjob)
    have ht := hscope.task
    rw [show layout = s.layout from hlayout, htask] at ht
    exact Nat.not_lt.mpr hk (Spaces.lt_size_of_kind? ht.1)
  | @enter s hand sym symbols jobs _ _ _ hsub _ =>
    refine fresh rfl (alike_foldl_wake _ _).pendings fun x hx k rule htask => ?_
    obtain ⟨job, hjob, rfl⟩ := List.mem_map.mp hx
    have hproduct : job.task.product? = some (.space k) := congrArg Task.product? htask
    exact sym.space_not_mem_owed k (hsub.subset (List.mem_filterMap.mpr ⟨job, hjob, hproduct⟩))
  | check hnone =>
    refine fresh rfl rfl fun x hx k rule htask => ?_
    rw [List.mem_singleton.mp hx] at htask
    rw [show _ = Task.space k rule from htask] at hnone
    cases hnone
  | defineMacro | defineVariable => exact .inl hc

/-! ## 6. Every moment -/

/-- What is known at a moment of the spaces of counters and the jobs for them. -/
structure Proper (settings : Settings) (m : Moment) : Prop where
  start : m.state.layout.counterAlignment = .multiplesOf settings.counterAlignment
  places : m.state.layout.Separate
  lengths : m.state.layout.spaces.Separate
  jobs : ∀ job, m.Carries job →
    job.task.Proper (.multiplesOf settings.counterAlignment) m.state.layout.spaces

theorem proper_start (settings : Settings) : (start settings).Proper settings where
  start := rfl
  places := .new _
  lengths _ _ hlength := nomatch hlength
  jobs job hc := absurd hc (not_carries_new settings job)

theorem Proper.counterAlignment_course (h : m.Proper settings) (hcourse : Course m m') :
    m'.state.layout.counterAlignment = .multiplesOf settings.counterAlignment := by
  refine Eq.trans ?_ h.start
  cases hcourse with
  | complete hstep => exact (fills_completion hstep).counterAlignment
  | change hchange => exact hchange.counterAlignment
  | still _ hlayout => exact congrArg _ hlayout
  | take => rfl

theorem Proper.places_course (h : m.Proper settings) (hcourse : Course m m') : m'.state.layout.Separate := by
  cases hcourse with
  | complete hstep =>
    have hfill := fills_completion hstep
    exact h.places.later hfill.counters hfill.spaces
  | change hchange => exact h.places.changes hchange
  | still _ hlayout => exact hlayout.symm ▸ h.places
  | take => exact h.places

theorem Proper.lengths_course (h : m.Proper settings) (hv : m.Valid) (hcourse : Course m m') :
    m'.state.layout.spaces.Separate := by
  have hearlier := (hv.turn_of_course hcourse).earlier.spaces
  refine h.lengths.later hearlier fun k length hlength => ?_
  rcases hv.gives hcourse hlength with hold | ⟨x, hhand, hgives⟩
  · exact .inl hold
  · right
    intro t ht
    have hx : x ∈ m.hand := by
      rw [hhand]
      exact List.mem_cons_self
    obtain ⟨id, hid, hterms⟩ := hgives.separate hv.wellFormed (hv.held x hx).inScope
      (h.jobs x.2 (.inl ⟨x, hx, rfl⟩)) h.lengths
    rw [hearlier.counter? hid, hearlier.counter? (hterms t ht)]

theorem Proper.jobs_course (h : m.Proper settings) (hv : m.Valid) (hcourse : Course m m') (job : Job)
    (hc : m'.Carries job) :
    job.task.Proper (.multiplesOf settings.counterAlignment) m'.state.layout.spaces := by
  have hearlier := (hv.turn_of_course hcourse).earlier.spaces
  have old : m.Carries job → job.task.Proper (.multiplesOf settings.counterAlignment) m'.state.layout.spaces :=
    fun hc => (h.jobs job hc).later hearlier (hc.scoped hv).task
  cases hcourse with
  | complete hstep =>
    rcases Completion.carries hstep hc with hc | ⟨p, -, rfl⟩
    · exact old hc
    · exact h.start
  | @change s hand layout job? hchange =>
    rcases hc with ⟨x, hx, rfl⟩ | ⟨id, p, hp, rfl⟩
    · rcases List.mem_append.mp hx with hx | hx
      · exact old (.inl ⟨x, hx, rfl⟩)
      · obtain ⟨job, hjob, rfl⟩ := List.mem_map.mp hx
        exact h.places.proper_changes hv.formed hchange _ job (Option.mem_toList.mp hjob)
    · exact old (.inr ⟨id, p, hp, rfl⟩)
  | still hprogress hlayout =>
    rcases Progress.carries hprogress hlayout hc with hc | hno
    · exact old hc
    · unfold Task.Proper
      split
      · exact absurd ‹_› (hno _ _)
      · trivial
  | take => exact old hc

/-- Every step of a session keeps this. -/
theorem Proper.course (h : m.Proper settings) (hv : m.Valid) (hcourse : Course m m') : m'.Proper settings :=
  ⟨h.counterAlignment_course hcourse, h.places_course hcourse, h.lengths_course hv hcourse,
    h.jobs_course hv hcourse⟩

end Moment

end Assembler
