import Assembler.Assembly.Basic
/-!
Attempts at tasks: what a task defines in the present state of an assembly, or what it waits for.

Whatever the outcome, a definition is one of the product of the task (`product?_attempt`).
-/

namespace Assembler

/-! ### Targets of moves -/

/-- Whether the open spaces of an address all belong to a given counter. -/
def Address.within (spaces : Spaces) (counter : CounterId) (a : Address) : Bool :=
  (a.openSpaces spaces).all fun s => (spaces.get? s).all (·.counter = counter)

/-- The address rounded up to a boundary, or the spaces that rounding waits for. -/
def Address.roundUp (spaces : Spaces) (boundary : Nat) (a : Address) :
    Except (List SpaceId) Address :=
  let a := a.normalize spaces
  if boundary ≤ 1 then .ok a
  else if a.spaces.isEmpty then
    .ok (a.addOffset ((Alignment.multiplesOf boundary).padding a.offset.toInt))
  else .error (a.spaces.map (·.1))

/-- The result of a computation that waits for spaces if it fails. -/
def Evaluation.ofExcept {α : Type} : Except (List SpaceId) α → Evaluation α
  | .ok a => .resolved a
  | .error spaces => .blockedOn spaces

/-- The length from `b` to `a`, which may be in terms of open spaces. -/
def Length.between (spaces : Spaces) (a b : Address) : Length :=
  let gap := (a - b).normalize spaces
  ⟨gap.offset, gap.spaces⟩

/-- A length without open spaces, as a number. -/
def Length.settled (l : Length) : Evaluation Int32 :=
  if l.spaces.isEmpty then .resolved l.bytes else .blockedOn (l.spaces.map (·.1))

namespace Assembly

/-- A length in the range that a rule sets. -/
def attemptLength (s : Assembly) (e : Expr) (rule : LengthRule) (f : Frame) : Evaluation Nat :=
  (s.evaluate e f).andThen rule.fallback fun
    | .absolute n =>
      if rule.min ≤ n ∧ n ≤ rule.max then .resolved n.toUInt32.toNat
      else .fallback rule.fallback rule.fault
    | .relocatable _ => .fallback rule.fallback rule.fault

/-- The integer attribute of a symbol. -/
def attemptInteger (s : Assembly) (n : Name) (type : DataType) : Evaluation Int32 :=
  match s.symbols.get? n with
  | none => .resolved 0
  | some sym =>
    let waiting (slot : Bool) (kind : AttributeKind) : List Prerequisite :=
      if slot then [.attr n kind] else []
    let blocked := waiting sym.attributes.length.isPending .length ++
      waiting sym.attributes.scale.isPending .scale
    if blocked.isEmpty then
      .resolved (type.integerAttribute (sym.attributes.length.known?.getD 1)
        (sym.attributes.scale.known?.getD 0))
    else .blocked blocked

/-- The place that a move to `target` from a place with the given bases leads to, before it is rounded
up. -/
def attemptTarget (s : Assembly) (space : SpaceId) (target : Expr) (position : Address)
    (f : Frame) : Evaluation Address :=
  (s.evaluate target f).andThen {} fun
    | .absolute _ => .fallback {} .orgNotRelocatable
    | .relocatable a =>
      let spaces := s.layout.spaces
      if a.bases = position.bases ∧ (spaces.get? space).all (a.within spaces ·.counter) then
        -- A target behind the move depends on where the move leads.
        if space ∈ a.openSpaces spaces then .blocked [.space space]
        else .resolved a
      else .fallback {} .outsideSection

/-- The length of a space. -/
def attemptSpace (s : Assembly) (space : SpaceId) (rule : SpaceRule) (f : Frame) :
    Evaluation Length :=
  let spaces := s.layout.spaces
  match rule with
  | .storage e => (s.evaluateNumber e f).map fun n => ⟨if n < 0 then 0 else n, []⟩
  | .padding position reference alignment =>
    ((Length.between spaces position reference).settled).map fun gap =>
      ⟨alignment.padding gap.toInt, []⟩
  | .jump target position boundary offset =>
    (s.attemptTarget space target position f).andThen .zero fun a =>
      (Evaluation.ofExcept (a.roundUp spaces boundary)).map fun place =>
        .between spaces (place.addOffset offset) position
  | .jumpToHighest candidates position =>
    (Evaluation.ofExcept (Address.highest spaces candidates)).map fun highest =>
      .between spaces highest position
  | .counterStart candidates sectionStart alignment =>
    (Evaluation.ofExcept (Address.highest spaces candidates)).andThen .zero fun highest =>
      ((Length.between spaces highest sectionStart).settled).map fun last =>
        let last := if last < 0 then 0 else last
        ⟨last + alignment.padding last.toInt, []⟩

/-- Whether something holds that nothing depends on. A fault elsewhere is reported there. -/
def attemptCheck (s : Assembly) (rule : CheckRule) (f : Frame) : Evaluation Unit :=
  let spaces := s.layout.spaces
  match rule with
  | .notBelow origin target boundary offset =>
    match s.evaluate target f with
    | .blocked waiting => .blocked waiting
    | .resolved (.relocatable a) =>
      if a.bases = origin.bases then
        (Evaluation.ofExcept (a.roundUp spaces boundary)).andThen () fun place =>
          ((Length.between spaces (place.addOffset offset) origin).settled).andThen () fun gap =>
            if gap < 0 then .fallback () .outsideSection else .resolved ()
      else .resolved ()
    | _ => .resolved ()
  | .lengthInRange e type min max =>
    match s.evaluateNumber e f with
    | .blocked waiting => .blocked waiting
    | .resolved n =>
      if min ≤ n ∧ n ≤ max then .resolved () else .fallback () (.lengthModifier type min max)
    | .fallback _ _ => .resolved ()

/-- What a task defines now, or what it waits for. -/
def attempt (s : Assembly) (job : Job) : Evaluation Definition :=
  match job.task with
  | .value n e => (s.evaluate e job.frame).map (.value n)
  | .length n e rule => (s.attemptLength e rule job.frame).map (.length n)
  | .scale n e => (s.evaluateNumber e job.frame).map (.scale n)
  | .integer n type => (s.attemptInteger n type).map (.integer n)
  | .space space rule => (s.attemptSpace space rule job.frame).map (.space space)
  | .check rule => (s.attemptCheck rule job.frame).map fun _ => .nothing

end Assembly

/-- The value of an evaluation that is not blocked. -/
def Evaluation.value? {α : Type} : Evaluation α → Option α
  | resolved a => some a
  | blocked _ => none
  | fallback a _ => some a

theorem Evaluation.value?_map {α β : Type} (f : α → β) (e : Evaluation α) :
    (e.map f).value? = e.value?.map f := by
  cases e <;> rfl

/-- An attempt at a task defines the product of the task. -/
theorem Assembly.product?_attempt {s : Assembly} {job : Job} {d : Definition}
    (h : (s.attempt job).value? = some d) : d.product? = job.task.product? := by
  unfold attempt at h
  split at h <;> rename_i ht <;> rw [ht] <;>
    simp only [Evaluation.value?_map, Option.map_eq_some_iff] at h <;>
    obtain ⟨_, -, rfl⟩ := h <;> rfl

end Assembler
