import Assembler.Proofs.Highest
import Assembler.Proofs.Reservation
/-!
Counters that have not been moved.

Every space but a move to a target gets a plain number of bytes (`Moment.Reachable.firm`). A further counter passes
nothing but storage and padding until it is moved, so all that its position depends on is the space that it begins
with, apart from such numbers (`Layout.Rooted`). Statements keep this (`Assembly.Acts.rooted`). As the counters are
placed at the end of the source only, a label of the counter depends on an open space of the counter until then
(`Address.RestsOn.mem_openSpaces`).
-/

namespace Assembler

open Assembly

/-! ## 1. Places behind a space -/

/-- Whether every space but a move to a target has a plain number of bytes, if it has a length. -/
def Spaces.Firm (a : Spaces) : Prop :=
  ∀ k length, a.length? k = some length → a.kind? k ≠ some .jump → length.spaces = []

theorem Spaces.Firm.grows {a b : Spaces} (h : a.Firm) (hab : a.Grows b) : b.Firm := by
  induction hab with
  | refl => exact h
  | create kind counter g _ ih =>
    intro k length hlength hkind
    rw [length?_create] at hlength
    exact ih k length hlength fun hjump => hkind ((earlier_create _ kind counter g).kind? hjump)

namespace Address

variable {a b : Spaces} {k : SpaceId} {x : Address}

/-- Whether a place moves with a space: as long as no length changes but that of the space and those of moves to
targets, the bytes to the place change by as much as the space does. -/
def RestsOn (a : Spaces) (k : SpaceId) (x : Address) : Prop :=
  ∀ τ υ, a.Fits τ → a.Fits υ →
    (∀ j kind, a.kind? j = some kind → kind ≠ .jump → j ≠ k → τ j = υ j) → x.bytes τ - x.bytes υ = τ k - υ k

theorem restsOn_start_addSpace (a : Spaces) (k : SpaceId) (s : SectionId) : ((start s).addSpace k 1).RestsOn a k := by
  intro τ υ _ _ _
  rw [bytes_addSpace, bytes_addSpace, bytes_start, bytes_start, Int32.zero_add, Int32.zero_add]

theorem RestsOn.later (h : x.RestsOn a k) (hab : a.Earlier b) : x.RestsOn b k := fun τ υ hτ hυ hsame =>
  h τ υ (hab.fits hτ) (hab.fits hυ) fun j kind hj => hsame j kind (hab.kind? hj)

theorem RestsOn.addOffset (h : x.RestsOn a k) (n : Int32) : (x.addOffset n).RestsOn a k := by
  intro τ υ hτ hυ hsame
  have hdistance := h τ υ hτ hυ hsame
  rw [bytes_addOffset, bytes_addOffset]
  grind

theorem RestsOn.addSpace (h : x.RestsOn a k) {j : SpaceId} {kind : SpaceKind} (hj : a.kind? j = some kind)
    (hkind : kind ≠ .jump) (hne : j ≠ k) : (x.addSpace j 1).RestsOn a k := by
  intro τ υ hτ hυ hsame
  have hdistance := h τ υ hτ hυ hsame
  have heq := hsame j kind hj hkind hne
  rw [bytes_addSpace, bytes_addSpace]
  grind

/-- As long as the space has no length, the place depends on it. -/
theorem RestsOn.mem_openSpaces (h : x.RestsOn a k) (ha : a.Acyclic) (hfirm : a.Firm) (hopen : ¬ a.isResolved k) :
    k ∈ x.openSpaces a := by
  refine Classical.byContradiction fun hno => ?_
  -- Two ways to give lengths that differ in the length of the space only.
  obtain ⟨τ, hτ, hzero⟩ := Spaces.exists_fits ha fun _ => 0
  obtain ⟨υ, hυ, hone⟩ := Spaces.exists_fits ha fun j => if j = k then 1 else 0
  have hsame : ∀ j kind, a.kind? j = some kind → kind ≠ .jump → j ≠ k → τ j = υ j := by
    intro j kind hj hkind hne
    cases hlength : a.length? j with
    | none =>
      have hj : ¬ a.isResolved j := by
        rw [Spaces.isResolved, hlength]
        exact Bool.false_ne_true
      rw [hzero j hj, hone j hj, if_neg hne]
    | some length =>
      have hnil := hfirm j length hlength fun hjump => hkind (Option.some.inj (hj.symm.trans hjump))
      rw [hτ j length hlength, hυ j length hlength, hnil]
      rfl
  have hspaces : (x.normalize a).spaces.value τ = (x.normalize a).spaces.value υ := Terms.value_congr fun j hj => by
    have hjopen : ¬ a.isResolved j := by
      obtain ⟨t, ht, rfl⟩ := List.mem_map.mp hj
      exact (normal_normalize ha x).isOpen t.1 (List.mem_map_of_mem ht)
    rw [hzero j hjopen, hone j hjopen, if_neg]
    rintro rfl
    exact hno hj
  have hdistance := h τ υ hτ hυ hsame
  rw [← bytes_normalize hτ, ← bytes_normalize hυ, bytes, bytes, hspaces, hzero k hopen, hone k hopen, if_pos rfl]
    at hdistance
  have hcontra : (0 : Int32) = 1 := by grind
  cases hcontra

end Address

/-! ## 2. Layouts -/

theorem Counter.marks_mark_ne_nil (c : Counter) (a : Spaces) : (c.mark a).marks ≠ [] := by
  unfold Counter.mark
  split
  · rename_i hany
    obtain ⟨x, hx, -⟩ := List.any_eq_true.mp hany
    exact List.ne_nil_of_mem hx
  · exact List.append_ne_nil_of_right_ne_nil _ (List.cons_ne_nil _ _)

namespace Layout

variable {l l' : Layout} {id : CounterId} {k : SpaceId}

/-- Whether the space that a further counter begins with belongs to the counter, and the position of the counter rests
on it unless the counter has been moved. -/
def Rooted (l : Layout) : Prop :=
  ∀ (j : Nat) (c : Counter) (k : SpaceId), l.counters[j]? = some c → c.start? = some k →
    l.spaces.counter? k = some ⟨j⟩ ∧ (c.marks = [] → c.position.RestsOn l.spaces k)

/-- Whether the counter in use is a further one that begins with a given space and has not been moved. -/
def Further (l : Layout) (id : CounterId) (k : SpaceId) : Prop :=
  l.current? = some id ∧ ∃ c, l.counter? id = some c ∧ c.start? = some k ∧ c.marks = []

theorem Further.current (h : l.Further id k) : ∃ c, l.current = some c ∧ c.start? = some k ∧ c.marks = [] := by
  obtain ⟨hid, c, hc, hfields⟩ := h
  exact ⟨c, by rw [Layout.current, hid]; exact hc, hfields⟩

theorem Further.hasStart (h : l.Further id k) : l.HasStart k := by
  obtain ⟨-, c, hc, hstart, -⟩ := h
  exact ⟨id.index, c, hc, hstart⟩

theorem Further.ensureSection (h : l.Further id k) : l.ensureSection = l := ensureSection_of_current? h.1

theorem Further.restsOn (h : l.Further id k) (hr : l.Rooted) :
    l.spaces.counter? k = some id ∧ l.position.RestsOn l.spaces k := by
  obtain ⟨c, hc, hstart, hmarks⟩ := h.current
  obtain ⟨i, hi, hget⟩ := Option.bind_eq_some_iff.mp hc
  obtain rfl : i = id := Option.some.inj (hi.symm.trans h.1)
  obtain ⟨hcounter, hrests⟩ := hr i.index c k hget hstart
  rw [position_of_current hc]
  exact ⟨hcounter, hrests hmarks⟩

theorem Further.fills (h : l.Further id k) (hfill : l.Fills l') : l'.Further id k := by
  obtain ⟨hid, c, hc, hfields⟩ := h
  refine ⟨hfill.current?.trans hid, c, ?_, hfields⟩
  rw [counter?, hfill.counters]
  exact hc

theorem Further.modifyCurrent (h : l.Further id k) (b : Spaces) {f : Counter → Counter}
    (hstart : ∀ c, (f c).start? = c.start?) (hmarks : ∀ c, (f c).marks = c.marks) :
    (({ l with spaces := b } : Layout).modifyCurrent f).Further id k := by
  obtain ⟨hid, c, hc, hk, hnil⟩ := h
  rw [Layout.modifyCurrent, show ({ l with spaces := b } : Layout).current? = some id from hid]
  exact ⟨rfl, f c, (getElem?_modify hc).trans (by rw [if_pos rfl]), (hstart c).trans hk, (hmarks c).trans hnil⟩

theorem Further.reserve (h : l.Further id k) (n : Int32) : (l.reserve n).Further id k := by
  rw [Layout.reserve, h.ensureSection]
  exact h.modifyCurrent l.spaces (fun _ => rfl) fun _ => rfl

theorem Further.passSpace (h : l.Further id k) (kind : SpaceKind) (g : Alignment) :
    (l.passSpace kind g).2.Further id k := by
  rw [passSpace_eq l kind g (h.ensureSection.symm ▸ h.1), h.ensureSection]
  exact h.modifyCurrent _ (fun _ => rfl) fun _ => rfl

theorem Further.align (h : l.Further id k) (a : Alignment) : (l.align a).2.Further id k := by
  have hcases := l.align_outcome a
  rw [h.ensureSection] at hcases
  rcases hcases with heq | ⟨n, heq⟩ | heq <;> rw [heq]
  · exact h
  · exact h.reserve n
  · exact h.passSpace _ _

/-! ### What keeps counters rooted -/

namespace Rooted

theorem new (boundary : Nat) : (Layout.new boundary).Rooted := fun _ _ _ h => nomatch h

theorem earlier (h : l.Rooted) (hcounters : l'.counters = l.counters) (hspaces : l.spaces.Earlier l'.spaces) :
    l'.Rooted := by
  intro j c k hc hk
  rw [hcounters] at hc
  obtain ⟨hcounter, hrests⟩ := h j c k hc hk
  exact ⟨hspaces.counter? hcounter, fun hmarks => (hrests hmarks).later hspaces⟩

theorem fills (h : l.Rooted) (hfill : l.Fills l') : l'.Rooted := h.earlier hfill.counters hfill.spaces

/-- A change of the counter in use while spaces may be added. -/
theorem modifyCurrent (h : l.Rooted) {b : Spaces} (hb : l.spaces.Earlier b) {f : Counter → Counter}
    (hstart : ∀ c, (f c).start? = c.start?)
    (hplace : ∀ c k, l.current = some c → k.index < l.spaces.size → (c.marks = [] → c.position.RestsOn l.spaces k) →
      (f c).marks = [] → (f c).position.RestsOn b k) :
    (({ l with spaces := b } : Layout).modifyCurrent f).Rooted := by
  have hlater : ({ l with spaces := b } : Layout).Rooted := h.earlier rfl hb
  unfold Layout.modifyCurrent
  split
  · rename_i id hid
    intro j c k hc hk
    -- The other counters stay as they are, in spaces that only become more.
    obtain ⟨d, hd, rfl⟩ := getElem?_modify_eq_some hc
    split at hk
    · rename_i hj
      rw [hstart] at hk
      obtain ⟨hcounter, hrests⟩ := h j d k hd hk
      obtain ⟨space, hspace, -⟩ := Option.map_eq_some_iff.mp hcounter
      have hcurrent : l.current = some d := by
        rw [Layout.current, show l.current? = some id from hid]
        show l.counters[id.index]? = some d
        rw [hj]
        exact hd
      rw [if_pos hj]
      exact ⟨hb.counter? hcounter, hplace d k hcurrent (Spaces.lt_size_of_get? hspace) hrests⟩
    · rw [if_neg ‹_›]
      exact hlater j d k hd hk
  · exact hlater

/-- A counter that leaves its place has been moved from then on. -/
theorem mark (h : l.Rooted) (a : Spaces) {f : Counter → Counter} (hstart : ∀ c, (f c).start? = c.start?)
    (hmarks : ∀ c, (f c).marks = (c.mark a).marks) : (l.modifyCurrent f).Rooted :=
  h.modifyCurrent (.refl _) hstart fun c _ _ _ _ hnil => absurd (hmarks c ▸ hnil) (c.marks_mark_ne_nil a)

theorem createSection (h : l.Rooted) (name? : Option Name) (kind : SectionKind) :
    (l.createSection name? kind).2.Rooted := by
  intro j c k hc hk
  rcases getElem?_concat_eq_some.mp hc with hc | ⟨-, rfl⟩
  · exact h j c k hc hk
  · cases hk

theorem ensureSection (h : l.Rooted) : l.ensureSection.Rooted := by
  unfold Layout.ensureSection
  split
  · exact h
  · exact h.createSection none .executable

theorem resumeSection (h : l.Rooted) (s : SectionId) : (l.resumeSection s).Rooted := by
  unfold Layout.resumeSection
  split <;> exact h

theorem resumeCounter (h : l.Rooted) (c : CounterId) : (l.resumeCounter c).Rooted := by
  unfold Layout.resumeCounter
  split <;> exact h

/-- A further counter is in no place but its start. -/
theorem createCounter (h : l.Rooted) (name : Name) : (l.createCounter name).2.Rooted := by
  obtain ⟨-, heq⟩ | ⟨s, -, heq⟩ := l.createCounter_cases name <;> rw [heq]
  · exact h.ensureSection
  · intro j c k hc hk
    have hearlier := l.ensureSection.earlier_addCounter name s
    rcases getElem?_addCounter.mp hc with hc | ⟨rfl, rfl⟩
    · obtain ⟨hcounter, hrests⟩ := h.ensureSection j c k hc hk
      exact ⟨hearlier.counter? hcounter, fun hmarks => (hrests hmarks).later hearlier⟩
    · cases hk
      exact ⟨Spaces.counter?_create _ _ _ _, fun _ => Address.restsOn_start_addSpace _ _ _⟩

theorem reserve (h : l.Rooted) (n : Int32) : (l.reserve n).Rooted :=
  h.ensureSection.modifyCurrent (.refl _) (fun _ => rfl) fun _ _ _ _ hrests hmarks => (hrests hmarks).addOffset n

theorem moveTo (h : l.Rooted) (place : Address) : (l.moveTo place).Rooted :=
  h.ensureSection.mark l.ensureSection.spaces (fun c => (fields_mark c _).2.1) fun _ => rfl

/-- Only a counter that has been moved passes moves to targets. -/
theorem passSpace (h : l.Rooted) {kind : SpaceKind} (g : Alignment)
    (hkind : kind = .jump → ∀ c, l.ensureSection.current = some c → c.marks ≠ []) :
    (l.passSpace kind g).2.Rooted := by
  obtain ⟨id, hid⟩ := l.exists_current_ensureSection
  rw [passSpace_eq l kind g hid]
  have hearlier := l.ensureSection.spaces.earlier_create kind id (if l.ensureSection.originImplies g then g else .any)
  refine h.ensureSection.modifyCurrent hearlier (fun _ => rfl) fun c k hc hlt hrests hmarks => ?_
  -- The new space is not a move to a target, and it is not the one that the counter begins with.
  refine ((hrests hmarks).later hearlier).addSpace (l.ensureSection.spaces.kind?_create kind id _) ?_ ?_
  · exact fun hjump => hkind hjump c hc hmarks
  · rintro rfl
    exact Nat.lt_irrefl _ hlt

theorem jump (h : l.Rooted) (kind : SpaceKind) : (l.jump kind).2.Rooted := by
  obtain ⟨id, hid⟩ := l.exists_current_ensureSection
  have hcurrent : (l.ensureSection.modifyCurrent (·.mark l.ensureSection.spaces)).current? = some id :=
    (spaces_modifyCurrent _ _).2.trans hid
  refine passSpace (h.ensureSection.mark _ (fun c => (fields_mark c _).2.1) fun _ => rfl) .any fun _ c hc => ?_
  rw [ensureSection_of_current? hcurrent, current_modifyCurrent] at hc
  obtain ⟨d, -, rfl⟩ := Option.map_eq_some_iff.mp hc
  exact d.marks_mark_ne_nil _

theorem align (h : l.Rooted) (a : Alignment) : (l.align a).2.Rooted := by
  rcases l.align_outcome a with heq | ⟨n, heq⟩ | heq <;> rw [heq]
  · exact h
  · exact h.ensureSection.reserve n
  · exact h.ensureSection.passSpace _ fun hjump => by cases hjump

end Rooted

end Layout

/-! ## 3. Statements -/

namespace Assembly

variable {s t : Assembly} {st : Statement}

theorem Still.rooted (h : Still st s t) (hr : s.layout.Rooted) : t.layout.Rooted := by
  rcases h.fills with hfill | heq
  · exact hr.fills hfill
  · rw [heq]
    exact hr.ensureSection

theorem Act.rooted (h : Act st s t) (hr : s.layout.Rooted) : t.layout.Rooted := by
  cases h with
  | still h => exact h.rooted hr
  | createSection name? => exact hr.createSection name? _
  | resumeSection sect => exact hr.resumeSection sect
  | resumeCounter c => exact hr.resumeCounter c
  | createCounter name => exact hr.createCounter name
  | align type => exact (hr.align _).fills (s.fills_align _ _)
  | reserve i => exact hr.reserve _
  | store =>
    obtain ⟨n, hfill⟩ | ⟨g, hfill⟩ := s.fills_reserveStorage _ _ _ _ _
    · exact (hr.reserve n).fills hfill
    · exact (hr.passSpace g fun hjump => by cases hjump).fills hfill
  | moveTo => exact hr.moveTo _
  | jump => exact (hr.jump _).fills (fills_resolveOrDefer s _ _ _)

/-- Statements keep counters rooted that have not been moved. -/
theorem Acts.rooted (h : Acts st s t) (hr : s.layout.Rooted) : t.layout.Rooted := by
  induction h with
  | refl => exact hr
  | tail _ hact ih => exact hact.rooted ih

theorem Still.further {id : CounterId} {k : SpaceId} (h : Still st s t) (hf : s.layout.Further id k) :
    t.layout.Further id k := by
  rcases h.fills with hfill | heq
  · exact hf.fills hfill
  · rw [heq, hf.ensureSection]
    exact hf

theorem Stills.further {id : CounterId} {k : SpaceId} (h : Stills st s t) (hf : s.layout.Further id k) :
    t.layout.Further id k := by
  induction h with
  | refl => exact hf
  | tail _ hstill ih => exact hstill.further ih

end Assembly

/-! ## 4. Labels -/

/-- Whether a statement gives its label the place of its storage. -/
def Statement.Places (st : Statement) (n : Name) : Prop :=
  st.label? = some n ∧
    ((∃ storageOnly first others, st.operation = .data storageOnly (first :: others)) ∨
      (st.operation = .instruction ∧ (Instruction.find? st.opcode).isSome))

namespace Assembly

variable {s t : Assembly} {st : Statement} {n : Name} {m : Moment} {x : Address}

/-- Whether a statement leads from `s` to `t`, in which its label is still free, and then enters the label for the
place `x`. -/
structure Introduces (st : Statement) (n : Name) (s t : Assembly) (m : Moment) (x : Address) : Prop where
  acts : Acts st.unlabelled s t
  further : ∀ id k, s.layout.Further id k → t.layout.Further id k
  free : t.symbols.get? n = none
  position : ∃ c, t.layout.current = some c ∧ c.position = x
  enter : Advance ⟨t, [], .reading⟩ m
  names : m.state.Names n x
  rest : Run Advance m ⟨s.process st, [], .reading⟩

/-- The label of a counter that has not been moved rests on the start of the counter. -/
theorem Introduces.restsOn (h : Introduces st n s t m x) (hr : s.layout.Rooted) {id : CounterId} {k : SpaceId}
    (hf : s.layout.Further id k) :
    m.state.layout.spaces.counter? k = some id ∧ x.RestsOn m.state.layout.spaces k := by
  obtain ⟨hcounter, hrests⟩ := (h.further id k hf).restsOn (h.acts.rooted hr)
  obtain ⟨c, hc, hx⟩ := h.position
  rw [Layout.position_of_current hc, hx] at hrests
  have hearlier := h.enter.step.grows.earlier.spaces
  exact ⟨hearlier.counter? hcounter, hrests.later hearlier⟩

theorem Introduces.bases_ne_nil (h : Introduces st n s t m x) (hs : s.Ready) (ho : s.layout.Ordered s.Names)
    (hst : st.Places n) : x.bases ≠ [] := by
  obtain ⟨c, hc, rfl⟩ := h.position
  have hop : (∃ storageOnly operands, st.operation = .data storageOnly operands) ∨ st.operation = .instruction :=
    hst.2.imp (fun ⟨_, _, _, heq⟩ => ⟨_, _, heq⟩) And.left
  have hordered : t.layout.Ordered s.Names := by
    refine h.acts.ordered hs (fun kind heq => ?_) (fun heq => ?_) (fun ⟨operands, heq⟩ => ?_) ho <;>
      rw [show st.operation = _ from heq] at hop <;> simp at hop
  rw [(hordered.current hc).position]
  exact List.cons_ne_nil _ _

/-- The first operand enters the label, the others only reserve storage. -/
theorem leads_firstOperand (hs : s.Ready) {storageOnly : Bool} {first : DataOperand} {others : List DataOperand}
    (hlabel : st.label? = some n) (hop : st.operation = .data storageOnly (first :: others)) :
    (s.processOperand st storageOnly (some n) first).Leads (s.process st) := by
  have hops : ∀ op ∈ first :: others, st.Reserves op := fun op hmem => ⟨storageOnly, _, hop, hmem⟩
  have hprocess : s.process st = others.foldl (fun s op => s.processOperand st storageOnly none op)
      (s.processOperand st storageOnly (some n) first) := by
    unfold process
    rw [hop, ← hlabel]
    rfl
  have hfirst := (@acts_processOperand s hs st storageOnly (some n) (fun _ h => hlabel.trans h) first
    (hops first List.mem_cons_self)).ready hs
  rw [hprocess]
  exact (acts_operands hfirst fun op hmem => hops op (List.mem_cons_of_mem _ hmem)).leads

/-- A label of data that is free is entered with the jobs for its attributes, and the rest of the statement
follows. -/
theorem exists_launches_operand (hs : s.Ready) {storageOnly : Bool} {op : DataOperand}
    (hlabel : st.label? = some n) (hnone : s.symbols.get? n = none)
    (hrest : (s.processOperand st storageOnly (some n) op).Leads (s.process st)) :
    let p := s.prepareOperand st storageOnly op
    let entering := (p.state.scaleOperand op p.frame).2
    let attributes := dataAttributes op p.length (p.state.scaleOperand op p.frame).1
    ∃ u v, Acts st.unlabelled s entering ∧ entering.symbols.get? n = none ∧
      entering.Launches (attributeJobs n op p.length attributes (op.type.lengthBounds storageOnly) p.frame) u v ∧
      u.symbols.get? n = some (p.state.operandSymbol op p.length p.frame n) ∧ v.Leads (s.process st) := by
  have halign := s.acts_alignOperand st op
  obtain ⟨hprepare, hscope, hlocation, -⟩ := stills_prepareOperand hs st storageOnly op
  rw [processOperand_eq] at hrest
  generalize s.prepareOperand st storageOnly op = p at hprepare hscope hlocation hrest ⊢
  have hready := hprepare.leads.ready (halign.ready hs)
  have hfree : p.state.symbols.get? n = none := (halign.trans hprepare.acts).get?_eq_none nofun hnone
  obtain ⟨u, v, hdefine, hlaunch, hget⟩ := launches_defineLabel hready hlabel hfree op p.length
    (op.type.lengthBounds storageOnly) hscope hlocation
  have hscale := @stills_scaleOperand p.state st.unlabelled op p.frame hlocation
  refine ⟨u, v, (halign.trans hprepare.acts).trans hscale.acts, ?_, hlaunch, (hget n).trans (if_pos rfl), ?_⟩
  · rw [symbols_scaleOperand]
    exact hfree
  · -- The label is entered, so its length needs no check.
    have hfinish : p.finish storageOnly (some n) op = v := by
      rw [Preparation.finish, Preparation.enter, hdefine]
      rfl
    dsimp only at hrest
    rw [hfinish] at hrest
    have hentered := (stills_defineLabel hready hlabel op p.length (op.type.lengthBounds storageOnly) hscope
      hlocation).leads.earlier
    rw [hdefine] at hentered
    exact (leads_reserveStorage v op _ _ _ (hscope.later hentered)).trans hrest

theorem exists_introduces_operand (hs : s.Ready) {storageOnly : Bool} {op : DataOperand}
    (hlabel : st.label? = some n) (hnone : s.symbols.get? n = none)
    (hrest : (s.processOperand st storageOnly (some n) op).Leads (s.process st)) :
    ∃ t m x, Introduces st n s t m x := by
  have halign := s.acts_alignOperand st op
  obtain ⟨hprepare, -, hlocation, -⟩ := stills_prepareOperand hs st storageOnly op
  obtain ⟨u, v, hacts, hfree, hlaunch, hget, hleads⟩ := exists_launches_operand hs hlabel hnone hrest
  have hfurther : ∀ id k, s.layout.Further id k → (s.prepareOperand st storageOnly op).state.layout.Further id k := by
    intro id k hf
    refine hprepare.further ?_
    unfold alignOperand
    split
    · exact hf
    · exact (hf.align _).fills (s.fills_align _ _)
  generalize s.prepareOperand st storageOnly op = p at hprepare hlocation hfurther hacts hfree hlaunch hget
  have hready := hprepare.leads.ready (halign.ready hs)
  have hscale := @stills_scaleOperand p.state st.unlabelled op p.frame hlocation
  have hsection : (p.state.scaleOperand op p.frame).2.layout = p.state.layout.ensureSection :=
    (alike_reportAny _ _ _).layout
  refine ⟨_, _, _, hacts, fun id k hf => hscale.further (hfurther id k hf), hfree, ?_, .progress hlaunch.enter,
    ⟨_, hget, rfl⟩, (hlaunch.cascade.imp fun _ _ => .cascade).trans hleads.run⟩
  obtain ⟨c, hc⟩ := hready.valid.formed.exists_current
  exact ⟨c, hsection ▸ hc, (Layout.position_of_current hc).symm⟩

theorem exists_introduces_instruction (hs : s.Ready) (hop : st.operation = .instruction) {i : Instruction}
    (hi : Instruction.find? st.opcode = some i) (hlabel : st.label? = some n) (hnone : s.symbols.get? n = none) :
    ∃ t m x, Introduces st n s t m x := by
  have halign : Act st.unlabelled s (s.align .halfword st.frame) := .align .h (scoped_frame st _) rfl
  have hsection : Still st.unlabelled (s.align .halfword st.frame)
      ((s.align .halfword st.frame).mapLayout Layout.ensureSection) := .ensure
  have hready := halign.leads.ready hs
  have hacts := halign.acts.tail (.still hsection)
  obtain ⟨c, hc⟩ := hready.valid.formed.exists_current
  have hprocess : s.process st =
      ((s.align .halfword st.frame).enterInstruction st i).mapLayout (·.reserve (Int32.ofNat i.length)) := by
    unfold process
    rw [hop]
    exact processMachine_eq hi
  have hfree := hacts.get?_eq_none nofun hnone
  have hsupplies := supplies_label hlabel (hsection.leads.ready hready).valid.formed.liesIn_position .machine 'I'
    i.length
  unfold enterInstruction at hprocess
  rw [hlabel] at hprocess
  dsimp only at hprocess
  -- From here on only the state matters in which the label is entered.
  generalize hsectioned : (s.align .halfword st.frame).mapLayout Layout.ensureSection = t
    at hacts hfree hsupplies hprocess
  obtain ⟨v, hv⟩ := @exists_createSymbol? t
    { name := n, value? := some (.relocatable t.layout.position), attributes := .label .machine 'I' i.length,
      location := st.location } hfree
  obtain ⟨symbols, hcreate, hlaunch⟩ := launches_supplies hsupplies hv
  have hget := ((SymbolTable.create?_eq_some hcreate).2 n).trans (if_pos rfl)
  rw [createSymbol, hv] at hprocess
  refine ⟨t, _, _, hacts, fun id k hf => hsectioned ▸ hsection.further ?_, hfree, ?_, .progress hlaunch.enter,
    ⟨_, (congrArg (·.get? n) (alike_foldl_wake _ _).symbols).trans hget, rfl⟩, ?_⟩
  · exact (hf.align _).fills (s.fills_align _ _)
  · exact ⟨c, hsectioned ▸ hc, (Layout.position_of_current (hsectioned ▸ hc)).symm⟩
  · rw [hprocess]
    exact (hlaunch.cascade.imp fun _ _ => .cascade).trans (leads_layout (Layout.arranges_reserve _ _)).run

/-- A label that is free at its statement is entered by it. -/
theorem exists_introduces (hs : s.Ready) (hst : st.Places n) (hnone : s.symbols.get? n = none) :
    ∃ t m x, Introduces st n s t m x := by
  obtain ⟨hlabel, ⟨storageOnly, first, others, hop⟩ | ⟨hop, hsome⟩⟩ := hst
  · exact exists_introduces_operand hs hlabel hnone (leads_firstOperand hs hlabel hop)
  · obtain ⟨i, hi⟩ := Option.isSome_iff_exists.mp hsome
    exact exists_introduces_instruction hs hop hi hlabel hnone

end Assembly

/-! ## 5. Lengths -/

namespace Assembly

variable {s u : Assembly} {job : Job}

theorem firm_establish {d : Definition} (h : s.layout.spaces.Firm) (hd : d.Sound s.layout.spaces) :
    (s.establish d).layout.spaces.Firm := by
  unfold establish
  split
  · exact h
  · rename_i t ht
    have hdefine : t.layout.spaces.Firm := by
      cases d with
      | space space length =>
        obtain ⟨b, hb, rfl⟩ := Option.map_eq_some_iff.mp ht
        intro k found hfound hkind
        rw [Spaces.length?_of_resolve? hb] at hfound
        have hkind : s.layout.spaces.kind? k ≠ some .jump := fun hjump =>
          hkind ((Spaces.earlier_of_resolve? hb).kind? hjump)
        split at hfound
        · rename_i heq
          cases hfound
          exact hd.plain (heq ▸ hkind)
        · exact h k found hfound hkind
      | nothing => cases ht
      | value | length | scale | integer =>
        obtain ⟨_, -, rfl⟩ := Option.map_eq_some_iff.mp ht
        exact h
    split
    · exact hdefine
    · exact hdefine

theorem Does.firm (h : s.Does job u) (hs : s.WellFormed) (hscope : job.Scoped s.layout.spaces)
    (hfirm : s.layout.spaces.Firm) : u.layout.spaces.Firm := by
  obtain ⟨t, d, halike, hval, -, rfl⟩ := h.exists_establish
  -- What an attempt gives is as sound as what stands in for it when the attempt fails.
  have hsound : d.Sound s.layout.spaces := by
    rcases hval with hval | rfl
    · exact sound_attempt hs.inScope hs.acyclic hscope hval
    · exact job.task.sound_fallback
  rw [← halike.layout] at hsound hfirm
  exact firm_establish hfirm hsound

end Assembly

namespace Moment

open Assembly

variable {m m' : Moment} {settings : Settings}

theorem firm_step (hm : m.Valid) (hstep : Step m m') (h : m.state.layout.spaces.Firm) :
    m'.state.layout.spaces.Firm := by
  cases hstep with
  | cascade hcascade =>
    cases hcascade with
    | @settle s hand id? job phase =>
      rcases settle_outcome s id? job with hdoes | ⟨waiting, -, -, heq⟩
      · exact hdoes.firm hm.wellFormed (hm.held _ List.mem_cons_self).inScope h
      · show (s.settle id? job).layout.spaces.Firm
        rw [heq]
        unfold postpone
        split <;> exact h
    | pick | skip | stall | resume => exact h
  | progress hprogress =>
    cases hprogress with
    | @report s hand d _ => exact (alike_addDiagnostic s d).layout ▸ h
    | arrange ha => exact h.grows ha.grows
    | @enter s _ sym symbols =>
      have halike := alike_foldl_wake { s with symbols } (provided sym)
      exact halike.layout.symm ▸ (show ({ s with symbols } : Assembly).layout.spaces.Firm from h)
    | check | defineMacro | defineVariable => exact h
  | ending hending =>
    cases hending with
    | @explain s _ p _ _ => exact (alike_explain s p.waiting p.work.frame.location).layout ▸ h
    | @conclude s id? job explained _ _ _ hexplained =>
      exact (conclude_outcome hexplained job).firm hm.wellFormed (hm.held _ List.mem_cons_self).inScope h
    | place | close | choose | clear => exact h

/-- At every moment every space but a move to a target has a plain number of bytes, if it has a length. -/
theorem Reachable.firm (h : m.Reachable settings) : m.state.layout.spaces.Firm :=
  (Run.keeps (P := fun m => m.Valid ∧ m.state.layout.spaces.Firm)
    (fun _ _ hstep hm => ⟨hm.1.step hstep, firm_step hm.1 hstep hm.2⟩) h
    ⟨valid_start settings, fun _ _ hlength => nomatch hlength⟩).2

/-- Before the end of the source a place that rests on the start of a further counter depends on that space, which is
still open. -/
theorem Reachable.mem_openSpaces (h : m.Reachable settings) (hphase : m.phase = .reading)
    (hopen : m.state.finished = false) {k : SpaceId} (hstart : m.state.layout.HasStart k) {x : Address}
    (hx : x.RestsOn m.state.layout.spaces k) : k ∈ x.openSpaces m.state.layout.spaces := by
  exact hx.mem_openSpaces h.valid.wellFormed.acyclic h.firm (h.unplaced hphase hopen k hstart).2

end Moment

/-! ## 6. Sessions -/

namespace Session

open Assembly

variable {s : Session}

theorem rooted_perform (hs : s.assembly.Ready) (hr : s.assembly.layout.Rooted) (c : Command) :
    (s.perform c).assembly.layout.Rooted := by
  by_cases hst : ∃ st, c = .process st
  · obtain ⟨st, rfl⟩ := hst
    exact (acts_process hs st).rooted hr
  · exact hr.fills (fills_operate hs (o := .command c) fun st heq => hst ⟨st, by cases heq; rfl⟩)

theorem rooted_performAll (hs : s.assembly.Ready) (hr : s.assembly.layout.Rooted) (commands : List Command) :
    (s.performAll commands).assembly.layout.Rooted := by
  induction commands generalizing s with
  | nil => exact hr
  | cons c rest ih => exact ih ((follows_perform hs c).ready hs) (rooted_perform hs hr c)

end Session

end Assembler
