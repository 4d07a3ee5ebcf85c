import Assembler.Proofs.Scope
/-!
Attempts at tasks in earlier and later states of an assembly.

A job that has to wait lists what is lacking (`lacks_of_attempt`), and it has to wait as long as that is
lacking (`isBlocked_attempt`). A length that results is in terms of open spaces, and unless it is the length
of a move to a target it is in terms of no spaces at all (`sound_attempt`). So it may be given to its
space.
-/

namespace Assembler

/-! ## 1. Jobs in terms of existing spaces -/

/-- The reason for a space that gets its length by a rule. -/
def SpaceRule.kind : SpaceRule → SpaceKind
  | .storage _ => .storage
  | .padding _ _ _ => .alignment
  | .jump _ _ _ _ => .jump
  | .jumpToHighest _ _ => .jumpToHighest
  | .counterStart _ _ _ => .counterStart

/-- Whether the places in a rule are in terms of existing spaces, and there is one to start with. -/
def SpaceRule.Scoped (a : Spaces) : SpaceRule → Prop
  | .storage _ | .padding _ _ _ => True
  | .jump _ position _ _ => position.LiesIn a
  | .jumpToHighest candidates position => position ∈ candidates ∧ ∀ x ∈ candidates, x.LiesIn a
  | .counterStart candidates _ _ => candidates ≠ []

/-- Whether the space of a task exists for the reason of its rule, if it has one, and its rule is in terms
of existing spaces. A rule for a length does not name a cycle as its fault. -/
def Task.Scoped (a : Spaces) : Task → Prop
  | .space s rule => a.kind? s = some rule.kind ∧ rule.Scoped a
  | .length _ _ rule => rule.fault ≠ .cyclic
  | _ => True

/-- Whether all places in a rule are in terms of existing spaces, those too that only its result depends on. -/
def SpaceRule.Anchored (a : Spaces) : SpaceRule → Prop
  | .storage _ => True
  | .padding position reference _ => position.LiesIn a ∧ reference.LiesIn a
  | .jump _ position _ _ => position.LiesIn a
  | .jumpToHighest candidates position => position.LiesIn a ∧ ∀ x ∈ candidates, x.LiesIn a
  | .counterStart candidates sectionStart _ => sectionStart.LiesIn a ∧ ∀ x ∈ candidates, x.LiesIn a

def CheckRule.Anchored (a : Spaces) : CheckRule → Prop
  | .notBelow origin _ _ _ => origin.LiesIn a
  | .lengthInRange _ _ _ _ => True

/-- Whether a fault can be met in the course of a computation. A computation finds that a variable symbol is not
defined, and waits for other names. -/
def Fault.isComputed : Fault → Bool
  | cyclic | redefinition _ => false
  | unresolved kind _ => kind = "variable symbol"
  | _ => true

/-- Whether all places in a task are in terms of existing spaces. A rule for a length names a fault of computations. -/
def Task.Anchored (a : Spaces) : Task → Prop
  | .space _ rule => rule.Anchored a
  | .check rule => rule.Anchored a
  | .length _ _ rule => rule.fault.isComputed
  | _ => True

structure Job.Scoped (a : Spaces) (job : Job) : Prop where
  frame : job.frame.Scoped a
  task : job.task.Scoped a

/-- The expression that a rule evaluates. -/
def SpaceRule.expr? : SpaceRule → Option Expr
  | .storage e => some e
  | .jump target _ _ _ => some target
  | _ => none

/-- The expression that a task evaluates. -/
def Task.expr? : Task → Option Expr
  | .value _ e => some e
  | .length _ e _ => some e
  | .scale _ e => some e
  | .integer _ _ => none
  | .space _ rule => rule.expr?
  | .check (.notBelow _ target _ _) => some target
  | .check (.lengthInRange e _ _ _) => some e

/-- Whether the expression of a job refers to the scale or the integer attribute of a symbol without
it. -/
def Assembly.misusesIn (s : Assembly) (job : Job) : Bool := job.task.expr?.any s.misuses

variable {a b : Spaces}

theorem Frame.Scoped.later {f : Frame} (h : f.Scoped a) (hab : a.Earlier b) : f.Scoped b :=
  fun x hx => (h x hx).later hab

theorem SpaceRule.Scoped.later {rule : SpaceRule} (h : rule.Scoped a) (hab : a.Earlier b) :
    rule.Scoped b := by
  cases rule with
  | storage | padding => trivial
  | jump => exact Address.LiesIn.later h hab
  | jumpToHighest =>
    exact ⟨h.1, fun x hx => (h.2 x hx).later hab⟩
  | counterStart => exact h

theorem Job.Scoped.later {job : Job} (h : job.Scoped a) (hab : a.Earlier b) : job.Scoped b where
  frame := h.frame.later hab
  task := by
    have ht := h.task
    cases hj : job.task with
    | space s rule =>
      rw [hj] at ht
      exact ⟨hab.kind? ht.1, ht.2.later hab⟩
    | length n e rule =>
      rw [hj] at ht
      exact ht
    | value | scale | integer | check => trivial

/-! ## 2. What results -/

/-- Whether a length may be given to a space: it is in terms of open spaces, if any, and only that of a
move to a target is in terms of spaces. -/
structure Length.Sound (a : Spaces) (s : SpaceId) (l : Length) : Prop where
  holds : a.Holds l.spaces
  isOpen : ∀ t ∈ l.spaces.map Prod.fst, ¬ a.isResolved t
  plain : a.kind? s ≠ some .jump → l.spaces = []

/-- Whether a definition may be made: a value is in terms of existing spaces, and a length is as it should
be. -/
def Definition.Sound (a : Spaces) : Definition → Prop
  | .value _ v => v.LiesIn a
  | .space s l => l.Sound a s
  | _ => True

theorem Definition.sound_of_spaces_nil {s : SpaceId} {l : Length} (h : l.spaces = []) :
    (Definition.space s l).Sound a := by
  refine ⟨?_, ?_, fun _ => h⟩
  · rw [h]
    exact Spaces.Holds.nil
  · rw [h]
    exact List.forall_mem_nil _

theorem Task.sound_fallback (t : Task) : t.fallback.Sound a := by
  cases t with
  | value => exact Value.liesIn_absolute 0
  | space => exact Definition.sound_of_spaces_nil rfl
  | length | scale | integer | check => trivial

namespace Assembly

variable {s t : Assembly}

/-- A move to a target may have a length in terms of open spaces. -/
theorem sound_between (hs : s.Scoped) (ha : s.layout.spaces.Acyclic) {x y : Address}
    (hx : x.LiesIn s.layout.spaces) (hy : y.LiesIn s.layout.spaces) {space : SpaceId}
    (hspace : s.layout.spaces.kind? space = some .jump) :
    (Definition.space space (.between s.layout.spaces x y)).Sound s.layout.spaces :=
  ⟨Address.LiesIn.normalize (hx.addScaled hy (-1)) hs.closed,
    (Address.normal_normalize ha _).isOpen, fun hne => absurd hspace hne⟩

/-- Where a move leads to is in terms of existing spaces. -/
theorem liesIn_attemptTarget (hs : s.Scoped) {space : SpaceId} {target : Expr}
    {position x : Address} {f : Frame} (hf : f.Scoped s.layout.spaces)
    (h : s.attemptTarget space target position f = .resolved x) : x.LiesIn s.layout.spaces := by
  obtain ⟨v, hv, hx⟩ := Evaluation.andThen_eq_resolved.mp h
  have hlies := liesIn_evaluate hs hf (e := target) (v := v) (by rw [hv]; rfl)
  cases v with
  | absolute n => cases hx
  | relocatable y =>
    simp only at hx
    split at hx
    · split at hx
      · cases hx
      · cases hx
        exact hlies
    · cases hx

theorem sound_attemptSpace (hs : s.Scoped) (ha : s.layout.spaces.Acyclic) {space : SpaceId}
    {rule : SpaceRule} {f : Frame} (hf : f.Scoped s.layout.spaces)
    (hkind : s.layout.spaces.kind? space = some rule.kind)
    (hr : rule.Scoped s.layout.spaces) {length : Length}
    (h : (s.attemptSpace space rule f).value? = some length) :
    (Definition.space space length).Sound s.layout.spaces := by
  cases rule with
  | storage e =>
    obtain ⟨n, -, rfl⟩ := Evaluation.exists_of_value?_map h
    exact Definition.sound_of_spaces_nil rfl
  | padding position reference alignment =>
    obtain ⟨n, -, rfl⟩ := Evaluation.exists_of_value?_map h
    exact Definition.sound_of_spaces_nil rfl
  | jump target position boundary offset =>
    rcases Evaluation.value?_andThen h with rfl | ⟨x, hx, hl⟩
    · exact Definition.sound_of_spaces_nil rfl
    have hlies := liesIn_attemptTarget hs hf hx
    obtain ⟨place, hplace, rfl⟩ := Evaluation.exists_of_value?_map hl
    have hplace : place.LiesIn s.layout.spaces := hlies.roundUp hs.closed (Evaluation.value?_ofExcept.mp hplace)
    have hmoved : (place.addOffset offset).LiesIn s.layout.spaces := hplace
    exact sound_between hs ha hmoved hr hkind
  | jumpToHighest candidates position =>
    obtain ⟨highest, hhighest, rfl⟩ := Evaluation.exists_of_value?_map h
    have hfind := Evaluation.value?_ofExcept.mp hhighest
    -- The position is one of the candidates, so its distance from the highest of them is known.
    exact Definition.sound_of_spaces_nil ((Address.apart_iff ha).mp (Address.apart_highest ha hfind position hr.1))
  | counterStart candidates sectionStart alignment =>
    rcases Evaluation.value?_andThen h with rfl | ⟨x, -, hl⟩
    · exact Definition.sound_of_spaces_nil rfl
    · obtain ⟨n, -, rfl⟩ := Evaluation.exists_of_value?_map hl
      exact Definition.sound_of_spaces_nil rfl

/-- What an attempt defines may be defined. -/
theorem sound_attempt (hs : s.Scoped) (ha : s.layout.spaces.Acyclic) {job : Job}
    (hj : job.Scoped s.layout.spaces) {d : Definition} (h : (s.attempt job).value? = some d) :
    d.Sound s.layout.spaces := by
  have htask := hj.task
  unfold attempt at h
  split at h <;> rename_i ht <;> rw [ht] at htask <;>
    obtain ⟨v, hv, rfl⟩ := Evaluation.exists_of_value?_map h
  · exact liesIn_evaluate hs hj.frame hv
  · trivial
  · trivial
  · trivial
  · exact sound_attemptSpace hs ha hj.frame htask.1 htask.2 hv
  · trivial

/-! ## 3. What has to wait -/

theorem lacks_of_blockedOn {α : Type} {spaces : List SpaceId}
    (ho : ∀ space ∈ spaces, ¬ s.layout.spaces.isResolved space) {waiting : List Prerequisite}
    (h : (Evaluation.blockedOn spaces : Evaluation α) = .blocked waiting) :
    ∀ p ∈ waiting, s.Lacks p := by
  cases h
  intro p hp
  obtain ⟨space, hspace, rfl⟩ := List.mem_map.mp hp
  exact ho space hspace

theorem lacks_of_ofExcept {α : Type} {x : Except (List SpaceId) α}
    (ho : ∀ spaces, x = .error spaces → ∀ space ∈ spaces, ¬ s.layout.spaces.isResolved space)
    {waiting : List Prerequisite} (h : Evaluation.ofExcept x = .blocked waiting) :
    ∀ p ∈ waiting, s.Lacks p := by
  cases x with
  | ok a => cases h
  | error spaces => exact lacks_of_blockedOn (ho spaces rfl) h

theorem lacks_of_settled_between (ha : s.layout.spaces.Acyclic) {x y : Address}
    {waiting : List Prerequisite}
    (h : (Length.between s.layout.spaces x y).settled = .blocked waiting) :
    ∀ p ∈ waiting, s.Lacks p := by
  simp only [Length.settled] at h
  split at h
  · cases h
  · refine lacks_of_blockedOn (fun space hspace => ?_) h
    exact (Address.normal_normalize ha (x - y)).isOpen space hspace

theorem lacks_of_evaluateNumber (hn : s.Named) (ha : s.layout.spaces.Acyclic) {e : Expr}
    {f : Frame} {waiting : List Prerequisite} (h : s.evaluateNumber e f = .blocked waiting) :
    ∀ p ∈ waiting, s.Lacks p := by
  rcases Evaluation.andThen_eq_blocked.mp h with h | ⟨v, -, hv⟩
  · exact lacks_of_evaluate hn ha h
  · cases v <;> cases hv

theorem attemptInteger_eq_blocked {n : Name} {type : DataType} {waiting : List Prerequisite} :
    s.attemptInteger n type = .blocked waiting ↔ ∃ sym, s.symbols.get? n = some sym ∧
      (sym.attributes.length = .pending ∨ sym.attributes.scale = .pending) ∧
        waiting = (if sym.attributes.length.isPending then [.attr n .length] else []) ++
          if sym.attributes.scale.isPending then [.attr n .scale] else [] := by
  cases hsym : s.symbols.get? n with
  | none => simp [attemptInteger, hsym]
  | some sym =>
    cases hl : sym.attributes.length <;> cases hs : sym.attributes.scale <;>
      simp only [attemptInteger, hsym, hl, hs, Slot.isPending, Option.some.injEq, exists_eq_left',
        List.nil_append, List.isEmpty_nil, if_true, Bool.false_eq_true, if_false, reduceCtorEq,
        List.isEmpty_cons, List.cons_append, or_self, or_true, true_or, true_and, false_and,
        Evaluation.blocked.injEq]
    all_goals exact eq_comm

theorem lacks_of_attemptInteger {n : Name} {type : DataType} {waiting : List Prerequisite}
    (h : s.attemptInteger n type = .blocked waiting) : ∀ p ∈ waiting, s.Lacks p := by
  obtain ⟨sym, hsym, -, rfl⟩ := attemptInteger_eq_blocked.mp h
  have only : ∀ sym', s.symbols.get? n = some sym' → sym' = sym := by
    intro sym' hsym'
    rw [hsym] at hsym'
    exact (Option.some.inj hsym').symm
  -- The integer attribute waits for the length and the scale, as far as they are pending.
  intro p hp
  rcases List.mem_append.mp hp with hp | hp
  · split at hp
    · rw [List.mem_singleton.mp hp]
      intro sym' hsym'
      rw [only sym' hsym']
      exact Slot.isPending_iff.mp ‹_›
    · cases hp
  · split at hp
    · rw [List.mem_singleton.mp hp]
      intro sym' hsym'
      rw [only sym' hsym']
      exact Slot.isPending_iff.mp ‹_›
    · cases hp

theorem lacks_of_attemptTarget (hn : s.Named) (ha : s.layout.spaces.Acyclic) {space : SpaceId}
    {target : Expr} {position : Address} {f : Frame} {waiting : List Prerequisite}
    (h : s.attemptTarget space target position f = .blocked waiting) :
    ∀ p ∈ waiting, s.Lacks p := by
  rcases Evaluation.andThen_eq_blocked.mp h with h | ⟨v, -, hv⟩
  · exact lacks_of_evaluate hn ha h
  · cases v with
    | absolute n => cases hv
    | relocatable x =>
      simp only at hv
      split at hv
      · split at hv
        · rename_i hopen
          cases hv
          intro p hp
          rw [List.mem_singleton.mp hp]
          exact Spaces.not_isResolved_of_mem_substitute ha hopen
        · cases hv
      · cases hv

theorem lacks_of_attemptSpace (hn : s.Named) (ha : s.layout.spaces.Acyclic) {space : SpaceId}
    {rule : SpaceRule} {f : Frame} {waiting : List Prerequisite}
    (h : s.attemptSpace space rule f = .blocked waiting) : ∀ p ∈ waiting, s.Lacks p := by
  cases rule with
  | storage e => exact lacks_of_evaluateNumber hn ha (Evaluation.map_eq_blocked.mp h)
  | padding position reference alignment =>
    exact lacks_of_settled_between ha (Evaluation.map_eq_blocked.mp h)
  | jump target position boundary offset =>
    rcases Evaluation.andThen_eq_blocked.mp h with h | ⟨x, -, hx⟩
    · exact lacks_of_attemptTarget hn ha h
    · refine lacks_of_ofExcept (fun spaces hround => ?_) (Evaluation.map_eq_blocked.mp hx)
      exact Address.not_isResolved_of_roundUp_error ha hround
  | jumpToHighest candidates position =>
    refine lacks_of_ofExcept (fun spaces hfind => ?_) (Evaluation.map_eq_blocked.mp h)
    exact Address.not_isResolved_of_highest_error ha hfind
  | counterStart candidates sectionStart alignment =>
    rcases Evaluation.andThen_eq_blocked.mp h with h | ⟨x, -, hx⟩
    · refine lacks_of_ofExcept (fun spaces hfind => ?_) h
      exact Address.not_isResolved_of_highest_error ha hfind
    · exact lacks_of_settled_between ha (Evaluation.map_eq_blocked.mp hx)

/-- A check of a place has to wait for the target, for a place behind it, or for the distance to that place. -/
theorem attemptCheck_notBelow_eq_blocked {origin : Address} {target : Expr} {boundary : Nat} {offset : Int32}
    {f : Frame} {waiting : List Prerequisite}
    (h : s.attemptCheck (.notBelow origin target boundary offset) f = .blocked waiting) :
    s.evaluate target f = .blocked waiting ∨ ∃ x, s.evaluate target f = .resolved (.relocatable x) ∧
      x.bases = origin.bases ∧ (Evaluation.ofExcept (x.roundUp s.layout.spaces boundary) = .blocked waiting ∨
        ∃ place, x.roundUp s.layout.spaces boundary = .ok place ∧
          (Length.between s.layout.spaces (place.addOffset offset) origin).settled = .blocked waiting) := by
  simp only [attemptCheck] at h
  split at h
  · cases h
    exact .inl ‹_›
  · rename_i x hx
    split at h
    · refine .inr ⟨x, hx, ‹_›, ?_⟩
      rcases Evaluation.andThen_eq_blocked.mp h with h | ⟨place, hplace, hgap⟩
      · exact .inl h
      · refine .inr ⟨place, Evaluation.ofExcept_eq_resolved.mp hplace, ?_⟩
        rcases Evaluation.andThen_eq_blocked.mp hgap with hgap | ⟨gap, -, hbelow⟩
        · exact hgap
        · split at hbelow <;> cases hbelow
    · cases h
  · cases h

theorem attemptCheck_lengthInRange_eq_blocked {e : Expr} {type : Char} {min max : Int32} {f : Frame}
    {waiting : List Prerequisite} (h : s.attemptCheck (.lengthInRange e type min max) f = .blocked waiting) :
    s.evaluateNumber e f = .blocked waiting := by
  simp only [attemptCheck] at h
  split at h
  · cases h
    exact ‹_›
  · split at h <;> cases h
  · cases h

theorem lacks_of_attemptCheck (hn : s.Named) (ha : s.layout.spaces.Acyclic) {rule : CheckRule}
    {f : Frame} {waiting : List Prerequisite} (h : s.attemptCheck rule f = .blocked waiting) :
    ∀ p ∈ waiting, s.Lacks p := by
  cases rule with
  | notBelow origin target boundary offset =>
    rcases attemptCheck_notBelow_eq_blocked h with h | ⟨x, -, -, h | ⟨place, -, hgap⟩⟩
    · exact lacks_of_evaluate hn ha h
    · exact lacks_of_ofExcept (fun _ hround => Address.not_isResolved_of_roundUp_error ha hround) h
    · exact lacks_of_settled_between ha hgap
  | lengthInRange e type min max => exact lacks_of_evaluateNumber hn ha (attemptCheck_lengthInRange_eq_blocked h)

/-- What a job waits for is lacking. -/
theorem lacks_of_attempt (hn : s.Named) (ha : s.layout.spaces.Acyclic) {job : Job}
    {waiting : List Prerequisite} (h : s.attempt job = .blocked waiting) :
    ∀ p ∈ waiting, s.Lacks p := by
  unfold attempt at h
  split at h <;> have h := Evaluation.map_eq_blocked.mp h
  · exact lacks_of_evaluate hn ha h
  · rcases Evaluation.andThen_eq_blocked.mp h with h | ⟨v, -, hv⟩
    · exact lacks_of_evaluate hn ha h
    · cases v with
      | absolute n =>
        simp only at hv
        split at hv <;> cases hv
      | relocatable x => cases hv
  · exact lacks_of_evaluateNumber hn ha h
  · exact lacks_of_attemptInteger h
  · exact lacks_of_attemptSpace hn ha h
  · exact lacks_of_attemptCheck hn ha h

end Assembly

/-! ### Waiting for something -/

theorem blockedOn_ne_nil {α : Type} {spaces : List SpaceId} (hne : spaces ≠ [])
    {waiting : List Prerequisite}
    (h : (Evaluation.blockedOn spaces : Evaluation α) = .blocked waiting) : waiting ≠ [] := by
  cases h
  simpa using hne

theorem settle_ne_nil {v : Value} {waiting : List Prerequisite}
    (h : v.settle a = .blocked waiting) : waiting ≠ [] := by
  obtain ⟨x, -, -, hne, rfl⟩ := Value.settle_eq_blocked h
  simpa using hne

theorem Evaluation.both_ne_nil {α β : Type} {x : Evaluation α} {y : Evaluation β}
    (hx : ∀ ps, x = .blocked ps → ps ≠ []) (hy : ∀ qs, y = .blocked qs → qs ≠ [])
    {waiting : List Prerequisite} (h : x.both y = .blocked waiting) : waiting ≠ [] := by
  rcases both_eq_blocked h with ⟨ps, hps, hsub⟩ | ⟨qs, hqs, hsub⟩
  · obtain ⟨p, rest, hp⟩ := List.exists_cons_of_ne_nil (hx ps hps)
    exact List.ne_nil_of_mem (hsub p (by rw [hp]; exact List.mem_cons_self))
  · obtain ⟨q, rest, hq⟩ := List.exists_cons_of_ne_nil (hy qs hqs)
    exact List.ne_nil_of_mem (hsub q (by rw [hq]; exact List.mem_cons_self))

theorem factor_ne_nil {v : Value} {waiting : List Prerequisite}
    (h : v.factor a = .blocked waiting) : waiting ≠ [] := by
  rcases Evaluation.andThen_eq_blocked.mp h with h | ⟨u, -, hu⟩
  · exact settle_ne_nil h
  · cases u <;> cases hu

theorem roundUp_ne_nil {α : Type} {x : Address} {boundary : Nat} {f : Address → α}
    {waiting : List Prerequisite}
    (h : (Evaluation.ofExcept (x.roundUp a boundary)).map f = .blocked waiting) :
    waiting ≠ [] := by
  obtain ⟨spaces, hup, rfl⟩ := Evaluation.ofExcept_eq_blocked.mp (Evaluation.map_eq_blocked.mp h)
  obtain ⟨-, hne, rfl⟩ := Address.roundUp_eq_error.mp hup
  simpa using hne

theorem highest_ne_nil {candidates : List Address} (hne : candidates ≠ [])
    {waiting : List Prerequisite}
    (h : Evaluation.ofExcept (Address.highest a candidates) = .blocked waiting) :
    waiting ≠ [] := by
  obtain ⟨spaces, hfind, rfl⟩ := Evaluation.ofExcept_eq_blocked.mp h
  cases candidates with
  | nil => exact absurd rfl hne
  | cons first others => simpa using (Address.highest_eq_error.mp hfind).1

theorem settled_ne_nil {l : Length} {waiting : List Prerequisite}
    (h : l.settled = .blocked waiting) : waiting ≠ [] := by
  unfold Length.settled at h
  split at h
  · cases h
  · rename_i hne
    exact blockedOn_ne_nil (by simpa using hne) h

namespace Assembly

variable {s : Assembly}

theorem evaluateOpen_ne_nil (hn : s.Named) {e : Expr} {f : Frame} {waiting : List Prerequisite}
    (h : e.evaluateOpen s.scope f = .blocked waiting) : waiting ≠ [] := by
  induction e generalizing waiting with
  | number n => cases h
  | symbol n =>
    simp only [Expr.evaluateOpen] at h
    split at h <;> cases h
    exact List.cons_ne_nil _ _
  | attr kind operand =>
    obtain ⟨n, -, -, -, rfl⟩ := (attributeOf_eq_blocked hn).mp (Evaluation.map_eq_blocked.mp h)
    exact List.cons_ne_nil _ _
  | counter =>
    simp only [Expr.evaluateOpen] at h
    split at h <;> cases h
  | negate e ih => exact ih (Evaluation.map_eq_blocked.mp h)
  | binary op l r ihl ihr =>
    rcases Evaluation.andThen_eq_blocked.mp h with h | ⟨v, -, hv⟩
    · exact Evaluation.both_ne_nil (fun _ => ihl) (fun _ => ihr) h
    · cases op with
      | add | sub => cases hv
      | mul | div =>
        exact Evaluation.both_ne_nil (fun _ => factor_ne_nil) (fun _ => factor_ne_nil)
          (Evaluation.map_eq_blocked.mp hv)

theorem evaluate_ne_nil (hn : s.Named) {e : Expr} {f : Frame} {waiting : List Prerequisite}
    (h : s.evaluate e f = .blocked waiting) : waiting ≠ [] := by
  simp only [evaluate, Expr.evaluate] at h
  split at h
  · exact settle_ne_nil h
  · exact evaluateOpen_ne_nil hn h

theorem evaluateNumber_ne_nil (hn : s.Named) {e : Expr} {f : Frame}
    {waiting : List Prerequisite} (h : s.evaluateNumber e f = .blocked waiting) :
    waiting ≠ [] := by
  rcases Evaluation.andThen_eq_blocked.mp h with h | ⟨v, -, hv⟩
  · exact evaluate_ne_nil hn h
  · cases v <;> cases hv

theorem attemptSpace_ne_nil (hn : s.Named) {space : SpaceId} {rule : SpaceRule} {f : Frame}
    (hr : rule.Scoped a) {waiting : List Prerequisite}
    (h : s.attemptSpace space rule f = .blocked waiting) : waiting ≠ [] := by
  cases rule with
  | storage e => exact evaluateNumber_ne_nil hn (Evaluation.map_eq_blocked.mp h)
  | padding position reference alignment => exact settled_ne_nil (Evaluation.map_eq_blocked.mp h)
  | jump target position boundary offset =>
    -- The target may have to wait, or it is known and rounding it up has to.
    rcases Evaluation.andThen_eq_blocked.mp h with h | ⟨x, -, hx⟩
    · rcases Evaluation.andThen_eq_blocked.mp h with h | ⟨v, -, hv⟩
      · exact evaluate_ne_nil hn h
      · cases v with
        | absolute n => cases hv
        | relocatable y =>
          simp only at hv
          split at hv
          · split at hv <;> cases hv
            exact List.cons_ne_nil _ _
          · cases hv
    · exact roundUp_ne_nil hx
  | jumpToHighest candidates position =>
    exact highest_ne_nil (List.ne_nil_of_mem hr.1) (Evaluation.map_eq_blocked.mp h)
  | counterStart candidates sectionStart alignment =>
    rcases Evaluation.andThen_eq_blocked.mp h with h | ⟨x, -, hx⟩
    · exact highest_ne_nil hr h
    · exact settled_ne_nil (Evaluation.map_eq_blocked.mp hx)

theorem attemptCheck_ne_nil (hn : s.Named) {rule : CheckRule} {f : Frame}
    {waiting : List Prerequisite} (h : s.attemptCheck rule f = .blocked waiting) :
    waiting ≠ [] := by
  cases rule with
  | notBelow origin target boundary offset =>
    rcases attemptCheck_notBelow_eq_blocked h with h | ⟨x, -, -, h | ⟨place, -, hgap⟩⟩
    · exact evaluate_ne_nil hn h
    · exact roundUp_ne_nil (f := id) (Evaluation.map_eq_blocked.mpr h)
    · exact settled_ne_nil hgap
  | lengthInRange e type min max => exact evaluateNumber_ne_nil hn (attemptCheck_lengthInRange_eq_blocked h)

/-- A job that has to wait waits for something. -/
theorem attempt_ne_nil (hn : s.Named) {job : Job} (hj : job.Scoped a)
    {waiting : List Prerequisite} (h : s.attempt job = .blocked waiting) : waiting ≠ [] := by
  have htask := hj.task
  unfold attempt at h
  split at h <;> rename_i heq <;> rw [heq] at htask <;>
    have h := Evaluation.map_eq_blocked.mp h
  · exact evaluate_ne_nil hn h
  · rcases Evaluation.andThen_eq_blocked.mp h with h | ⟨v, -, hv⟩
    · exact evaluate_ne_nil hn h
    · cases v with
      | absolute n =>
        simp only at hv
        split at hv <;> cases hv
      | relocatable x => cases hv
  · exact evaluateNumber_ne_nil hn h
  · obtain ⟨sym, -, hpending, rfl⟩ := attemptInteger_eq_blocked.mp h
    rcases hpending with hl | hs
    · rw [hl]
      exact List.append_ne_nil_of_left_ne_nil (List.cons_ne_nil _ _) _
    · rw [hs]
      exact List.append_ne_nil_of_right_ne_nil _ (List.cons_ne_nil _ _)
  · exact attemptSpace_ne_nil hn htask.2 h
  · exact attemptCheck_ne_nil hn h

end Assembly

namespace Assembly

variable {s t : Assembly}

/-! ## 4. What has to wait still -/

/-- What holds of an assembly however it came about. -/
structure WellFormed (s : Assembly) : Prop where
  named : s.Named
  acyclic : s.layout.spaces.Acyclic
  inScope : s.Scoped

variable (hst : s.Earlier t) (hs : s.WellFormed) (ht : t.WellFormed)

include hst hs ht

/-- A distance that had to wait waits, whatever numbers of bytes are involved. -/
theorem isBlocked_between {x x' y : Address} {waiting : List Prerequisite}
    (h : (Length.between s.layout.spaces x y).settled = .blocked waiting)
    (hl : ∀ p ∈ waiting, t.Lacks p)
    (hsame : ((x' - y).normalize t.layout.spaces).spaces =
      ((x - y).normalize t.layout.spaces).spaces) :
    (Length.between t.layout.spaces x' y).settled.IsBlocked := by
  simp only [Length.settled] at h ⊢
  split at h
  · cases h
  · rename_i hne
    cases h
    have heq : (x - y).normalize t.layout.spaces = (x - y).normalize s.layout.spaces :=
      Address.normalize_eq hst.spaces hs.acyclic ht.acyclic fun space hspace =>
        hl (.space space) (List.mem_map_of_mem hspace)
    have hne' : ¬ (Length.between t.layout.spaces x' y).spaces.isEmpty := by
      show ¬ ((x' - y).normalize t.layout.spaces).spaces.isEmpty
      rw [hsame, heq]
      exact hne
    rw [if_neg hne']
    exact ⟨_, rfl⟩

theorem isBlocked_roundUp {x y : Address} {boundary : Nat} {spaces : List SpaceId}
    (h : x.roundUp s.layout.spaces boundary = .error spaces)
    (hl : ∀ space ∈ spaces, ¬ t.layout.spaces.isResolved space) (hy : y.Normal t.layout.spaces)
    (hsame : y.spaces = (x.normalize t.layout.spaces).spaces) :
    ∃ spaces', y.roundUp t.layout.spaces boundary = .error spaces' := by
  obtain ⟨hboundary, hne, rfl⟩ := Address.roundUp_eq_error.mp h
  have heq : x.normalize t.layout.spaces = x.normalize s.layout.spaces :=
    Address.normalize_eq hst.spaces hs.acyclic ht.acyclic hl
  refine ⟨_, Address.roundUp_eq_error.mpr ⟨hboundary, ?_, rfl⟩⟩
  rw [hy.normalize_eq ht.acyclic, hsame, heq]
  exact hne

theorem highest_eq {candidates : List Address}
    (hl : ∀ spaces, Address.highest s.layout.spaces candidates = .error spaces →
      ∀ space ∈ spaces, ¬ t.layout.spaces.isResolved space) :
    Address.highest t.layout.spaces candidates = Address.highest s.layout.spaces candidates :=
  Address.highest_eq hst.spaces hs.acyclic ht.acyclic hl

omit hs ht

theorem isBlocked_attemptInteger {n : Name} {type : DataType} {waiting : List Prerequisite}
    (h : s.attemptInteger n type = .blocked waiting) (hl : ∀ p ∈ waiting, t.Lacks p) :
    (t.attemptInteger n type).IsBlocked := by
  obtain ⟨sym, hsym, hpending, rfl⟩ := attemptInteger_eq_blocked.mp h
  obtain ⟨later, hlater, -⟩ := hst.symbols n sym hsym
  refine ⟨_, attemptInteger_eq_blocked.mpr ⟨later, hlater, ?_, rfl⟩⟩
  rcases hpending with hlength | hscale
  · refine .inl (hl (.attr n .length) ?_ later hlater)
    rw [hlength]
    exact List.mem_append_left _ (List.mem_singleton.mpr rfl)
  · refine .inr (hl (.attr n .scale) ?_ later hlater)
    rw [hscale]
    exact List.mem_append_right _ (List.mem_singleton.mpr rfl)

include hs ht

variable (hf : t.finished = s.finished)

include hf

/-- A move to a place that was known but could not be rounded waits. -/
theorem isBlocked_rounding {space : SpaceId} {target : Expr} {position x : Address}
    {boundary : Nat} {f : Frame} {spaces : List SpaceId}
    (hm : t.finished → t.misuses target = false) (hframe : f.Scoped s.layout.spaces)
    (hspace : space.index < s.layout.spaces.size)
    (hx : s.attemptTarget space target position f = .resolved x)
    (hround : x.roundUp s.layout.spaces boundary = .error spaces)
    (hl : ∀ k ∈ spaces, ¬ t.layout.spaces.isResolved k) :
    (t.attemptTarget space target position f).IsBlocked ∨
      ∃ y spaces', t.attemptTarget space target position f = .resolved y ∧
        y.roundUp t.layout.spaces boundary = .error spaces' := by
  obtain ⟨v, hv, htarget⟩ := Evaluation.andThen_eq_resolved.mp hx
  cases v with
  | absolute n => cases htarget
  | relocatable x' =>
    simp only at htarget
    split at htarget
    case isFalse => cases htarget
    rename_i hcond
    split at htarget
    case isTrue => cases htarget
    rename_i hclear
    cases htarget
    rcases later_evaluate_relocatable hst hs.acyclic ht.acyclic hf hm hv with
      ⟨ps, hps⟩ | ⟨y, hy, hbases, hnormal, hyspaces⟩
    · exact .inl ⟨ps, by rw [attemptTarget, hps]; rfl⟩
    obtain ⟨spaces', hup⟩ := isBlocked_roundUp hst hs ht hround hl hnormal hyspaces
    refine .inr ⟨y, spaces', ?_, hup⟩
    -- All open spaces are still open, so the checks of the target come out as before.
    have hsame : x.normalize t.layout.spaces = x.normalize s.layout.spaces := by
      obtain ⟨-, -, rfl⟩ := Address.roundUp_eq_error.mp hround
      exact Address.normalize_eq hst.spaces hs.acyclic ht.acyclic hl
    have hopen : y.openSpaces t.layout.spaces = x.openSpaces s.layout.spaces := by
      show (y.normalize t.layout.spaces).spaces.map Prod.fst =
        (x.normalize s.layout.spaces).spaces.map Prod.fst
      rw [hnormal.normalize_eq ht.acyclic, hyspaces, hsame]
    have hlies : (x.normalize s.layout.spaces).LiesIn s.layout.spaces := by
      have hval := liesIn_evaluate hs.inScope hframe (v := .relocatable x) (by rw [hv]; rfl)
      exact Address.LiesIn.normalize hval hs.inScope.closed
    have hwithin : (t.layout.spaces.get? space).all (y.within t.layout.spaces ·.counter) := by
      rw [hst.spaces.all_counter hspace (y.within t.layout.spaces ·)]
      simp only [Address.within_eq hst.spaces hlies hopen]
      exact hcond.2
    simp only [attemptTarget, hy, Evaluation.andThen]
    rw [if_pos ⟨hbases.trans hcond.1, hwithin⟩, hopen, if_neg hclear]

variable {f : Frame} {waiting : List Prerequisite} (hframe : f.Scoped s.layout.spaces)
  (hl : ∀ p ∈ waiting, t.Lacks p)

include hframe hl

theorem isBlocked_jump {space : SpaceId} {target : Expr} {position : Address} {boundary : Nat}
    {offset : Int32} (hm : t.finished → t.misuses target = false)
    (hspace : space.index < s.layout.spaces.size) (hself : .space space ∉ waiting)
    (h : s.attemptSpace space (.jump target position boundary offset) f = .blocked waiting) :
    (t.attemptSpace space (.jump target position boundary offset) f).IsBlocked := by
  have later : (t.attemptTarget space target position f).IsBlocked →
      (t.attemptSpace space (.jump target position boundary offset) f).IsBlocked := by
    rintro ⟨ps, hps⟩
    exact ⟨ps, by rw [attemptSpace, hps]; rfl⟩
  -- Either the target had to wait, or only rounding it up did.
  rcases Evaluation.andThen_eq_blocked.mp h with h | ⟨x, hx, hround⟩
  · rcases Evaluation.andThen_eq_blocked.mp h with h | ⟨v, -, hv⟩
    · obtain ⟨ps, hps⟩ :=
        isBlocked_evaluate hst hs.acyclic ht.acyclic hf hs.named ht.named hm h hl
      exact later ⟨ps, by rw [attemptTarget, hps]; rfl⟩
    · -- A move that waits for its own space is not put aside.
      cases v with
      | absolute n => cases hv
      | relocatable x =>
        simp only at hv
        split at hv
        · split at hv
          · cases hv
            exact absurd (List.mem_singleton.mpr rfl) hself
          · cases hv
        · cases hv
  · obtain ⟨spaces, hup, rfl⟩ := Evaluation.ofExcept_eq_blocked.mp (Evaluation.map_eq_blocked.mp hround)
    rcases isBlocked_rounding hst hs ht hf hm hframe hspace hx hup
      (fun k hk => hl (.space k) (List.mem_map_of_mem hk)) with hblocked | ⟨y, spaces', hy, hup'⟩
    · exact later hblocked
    · simp only [attemptSpace, hy, Evaluation.andThen, hup']
      exact ⟨_, rfl⟩

theorem isBlocked_attemptSpace {space : SpaceId} {rule : SpaceRule}
    (hm : t.finished → rule.expr?.any t.misuses = false)
    (hspace : space.index < s.layout.spaces.size) (hself : .space space ∉ waiting)
    (h : s.attemptSpace space rule f = .blocked waiting) :
    (t.attemptSpace space rule f).IsBlocked := by
  cases rule with
  | storage e =>
    refine Evaluation.isBlocked_map.mpr ?_
    exact isBlocked_evaluateNumber hst hs.acyclic ht.acyclic hf hs.named ht.named hm
      (Evaluation.map_eq_blocked.mp h) hl
  | padding position reference alignment =>
    refine Evaluation.isBlocked_map.mpr ?_
    exact isBlocked_between hst hs ht (Evaluation.map_eq_blocked.mp h) hl rfl
  | jump target position boundary offset =>
    exact isBlocked_jump hst hs ht hf hframe hl hm hspace hself h
  | jumpToHighest candidates position =>
    obtain ⟨spaces, hfind, rfl⟩ := Evaluation.ofExcept_eq_blocked.mp (Evaluation.map_eq_blocked.mp h)
    -- As long as the spaces have no lengths, the search for the highest place finds the same.
    have hsame := highest_eq hst hs ht fun ks hks k hk => by
      cases hfind.symm.trans hks
      exact hl (.space k) (List.mem_map_of_mem hk)
    simp only [attemptSpace, hsame, hfind]
    exact ⟨_, rfl⟩
  | counterStart candidates sectionStart alignment =>
    -- The search is the same again, and the distance behind the place that it finds is.
    rcases Evaluation.andThen_eq_blocked.mp h with h | ⟨x, hx, hgap⟩
    · obtain ⟨spaces, hfind, rfl⟩ := Evaluation.ofExcept_eq_blocked.mp h
      have hsame := highest_eq hst hs ht fun ks hks k hk => by
        cases hfind.symm.trans hks
        exact hl (.space k) (List.mem_map_of_mem hk)
      simp only [attemptSpace, hsame, hfind]
      exact ⟨_, rfl⟩
    · have hfind := Evaluation.ofExcept_eq_resolved.mp hx
      have hsame := highest_eq hst hs ht fun ks hks => by cases hfind.symm.trans hks
      obtain ⟨ps, hps⟩ := isBlocked_between hst hs ht (Evaluation.map_eq_blocked.mp hgap) hl rfl
      simp only [attemptSpace, hsame, hx, Evaluation.andThen, hps]
      exact ⟨_, rfl⟩

omit hframe hf

/-- The distance of a move to its origin is that of its target, up to numbers of bytes. -/
theorem isBlocked_distance {x y origin place place' : Address} {boundary : Nat} {offset : Int32}
    (hround : x.roundUp s.layout.spaces boundary = .ok place)
    (hround' : y.roundUp t.layout.spaces boundary = .ok place')
    (hy : y.Normal t.layout.spaces) (hsame : y.spaces = (x.normalize t.layout.spaces).spaces)
    (h : (Length.between s.layout.spaces (place.addOffset offset) origin).settled =
      .blocked waiting) :
    (Length.between t.layout.spaces (place'.addOffset offset) origin).settled.IsBlocked := by
  refine isBlocked_between hst hs ht h hl ?_
  have hspaces : place.spaces = (x.normalize s.layout.spaces).spaces :=
    (Address.spaces_of_roundUp hround).2
  have hspaces' : place'.spaces = (x.normalize t.layout.spaces).spaces := by
    rw [(Address.spaces_of_roundUp hround').2, hy.normalize_eq ht.acyclic, hsame]
  -- Both distances come from the target itself.
  have early := Address.normalize_addScaled_normalize hst.spaces ht.acyclic x origin (-1)
  have late := Address.normalize_addScaled_normalize (.refl t.layout.spaces) ht.acyclic x origin
    (-1)
  show (t.layout.spaces.substitute (place'.spaces.addScaled origin.spaces (-1))).2 =
    (t.layout.spaces.substitute (place.spaces.addScaled origin.spaces (-1))).2
  rw [hspaces, hspaces']
  exact congrArg Address.spaces (late.trans early.symm)

include hf

theorem isBlocked_notBelow {origin : Address} {target : Expr} {boundary : Nat} {offset : Int32}
    (hm : t.finished → t.misuses target = false)
    (h : s.attemptCheck (.notBelow origin target boundary offset) f = .blocked waiting) :
    (t.attemptCheck (.notBelow origin target boundary offset) f).IsBlocked := by
  rcases attemptCheck_notBelow_eq_blocked h with h | ⟨x, hx, hbases, hwait⟩
  · obtain ⟨qs, hqs⟩ := isBlocked_evaluate hst hs.acyclic ht.acyclic hf hs.named ht.named hm h hl
    simp only [attemptCheck, hqs]
    exact ⟨_, rfl⟩
  -- The target was an address and still is one with the same sections and spaces.
  rcases later_evaluate_relocatable hst hs.acyclic ht.acyclic hf hm hx with
    ⟨ps, hps⟩ | ⟨y, hy, hybases, hnormal, hyspaces⟩
  · simp only [attemptCheck, hps]
    exact ⟨_, rfl⟩
  simp only [attemptCheck, hy]
  rw [if_pos (hybases.trans hbases)]
  rcases hwait with hopen | ⟨place, hround, hgap⟩
  · -- What could not be rounded up still cannot.
    obtain ⟨spaces, hround, rfl⟩ := Evaluation.ofExcept_eq_blocked.mp hopen
    obtain ⟨spaces', hround'⟩ := isBlocked_roundUp hst hs ht hround
      (fun k hk => hl (.space k) (List.mem_map_of_mem hk)) hnormal hyspaces
    rw [hround']
    exact ⟨_, rfl⟩
  · cases hround' : y.roundUp t.layout.spaces boundary with
    | error spaces => exact ⟨_, rfl⟩
    | ok place' => exact (isBlocked_distance hst hs ht hl hround hround' hnormal hyspaces hgap).andThen _ _

theorem isBlocked_attemptCheck {rule : CheckRule}
    (hm : t.finished → (Task.check rule).expr?.any t.misuses = false)
    (h : s.attemptCheck rule f = .blocked waiting) : (t.attemptCheck rule f).IsBlocked := by
  cases rule with
  | notBelow origin target boundary offset => exact isBlocked_notBelow hst hs ht hf hl hm h
  | lengthInRange e type min max =>
    obtain ⟨qs, hqs⟩ := isBlocked_evaluateNumber hst hs.acyclic ht.acyclic hf hs.named ht.named hm
      (attemptCheck_lengthInRange_eq_blocked h) hl
    simp only [attemptCheck, hqs]
    exact ⟨_, rfl⟩

/-- A job that has been put aside waits as long as what it waited for is lacking. -/
theorem isBlocked_attempt {job : Job} (hm : t.finished → t.misusesIn job = false)
    (hj : job.Scoped s.layout.spaces) (hself : ∀ key, job.task.product? = some key → key ∉ waiting)
    (h : s.attempt job = .blocked waiting) : (t.attempt job).IsBlocked := by
  have htask := hj.task
  unfold attempt at h ⊢
  split at h <;> rename_i heq <;> rw [heq] at htask hself <;>
    rw [misusesIn, heq] at hm <;> refine Evaluation.isBlocked_map.mpr ?_ <;>
    have h := Evaluation.map_eq_blocked.mp h
  · exact isBlocked_evaluate hst hs.acyclic ht.acyclic hf hs.named ht.named hm h hl
  · rcases Evaluation.andThen_eq_blocked.mp h with h | ⟨v, -, hv⟩
    · obtain ⟨ps, hps⟩ :=
        isBlocked_evaluate hst hs.acyclic ht.acyclic hf hs.named ht.named hm h hl
      exact ⟨ps, by rw [attemptLength, hps]; rfl⟩
    · cases v with
      | absolute n =>
        simp only at hv
        split at hv <;> cases hv
      | relocatable x => cases hv
  · exact isBlocked_evaluateNumber hst hs.acyclic ht.acyclic hf hs.named ht.named hm h hl
  · exact isBlocked_attemptInteger hst h hl
  · have hlt := Spaces.lt_size_of_kind? htask.1
    exact isBlocked_attemptSpace hst hs ht hf hj.frame hl hm hlt (hself _ rfl) h
  · exact isBlocked_attemptCheck hst hs ht hf hl hm h

end Assembly

end Assembler
