import Assembler.Proofs.Process
/-!
Expressions that do not ask what an operation code is.

The attribute `O'` is the only thing that depends on which macros are defined. An expression that does not ask for it
of certain names (`Expr.Avoids`) never waits for it (`Assembly.spares_of_attempt`), and neither does any work that a
statement of such expressions gives rise to.
-/

namespace Assembler

/-! ## 1. The names that `O'` is asked of -/

/-- The names of which an expression asks for the operation code attribute. -/
def Expr.opcodeTerms : Expr → List Name
  | attr kind (.symbol n) => if kind = .opcode then [n] else []
  | negate e => e.opcodeTerms
  | binary _ l r => l.opcodeTerms ++ r.opcodeTerms
  | _ => []

/-- The expressions of an operand, those between its parentheses too. -/
def DataOperand.exprs (op : DataOperand) : List Expr :=
  op.duplication?.toList ++ (op.length?.map (·.expr)).toList ++ op.scale?.toList ++ op.exponent?.toList ++
    match op.nominal? with
    | some (.exprs values) => values
    | _ => []

def Operation.exprs : Operation → List Expr
  | .equ value? length? type? => value?.toList ++ length?.toList ++ type?.toList
  | .data _ operands => operands.flatMap DataOperand.exprs
  | .org (.place target? boundary? offset?) => target?.toList ++ boundary?.toList ++ offset?.toList
  | _ => []

/-- Whether an expression asks of none of some names what operation code it is. -/
def Expr.Avoids (ns : Name → Prop) (e : Expr) : Prop := ∀ n ∈ e.opcodeTerms, ¬ ns n

def DataOperand.Avoids (ns : Name → Prop) (op : DataOperand) : Prop := ∀ e ∈ op.exprs, e.Avoids ns

def Statement.Avoids (ns : Name → Prop) (st : Statement) : Prop := ∀ e ∈ st.operation.exprs, e.Avoids ns

def Amount.Avoids (ns : Name → Prop) (amount : Amount) : Prop := amount.toExpr.Avoids ns

def Task.Avoids (ns : Name → Prop) (task : Task) : Prop := ∀ e ∈ task.expr?, e.Avoids ns

/-- Whether a prerequisite is none of the operation code attributes of some names. -/
def Prerequisite.Spares (ns : Name → Prop) (key : Prerequisite) : Prop := ∀ n, ns n → key ≠ .attr n .opcode

variable {ns : Name → Prop}

namespace Expr

theorem avoids_number (n : Int32) : (number n).Avoids ns := List.forall_mem_nil _

theorem avoids_attr {kind : AttributeKind} (hkind : kind ≠ .opcode) (operand : AttributeOperand) :
    (attr kind operand).Avoids ns := by
  cases operand with
  | symbol n =>
    rw [Avoids, opcodeTerms, if_neg hkind]
    exact List.forall_mem_nil _
  | variableSymbol n => exact List.forall_mem_nil _

theorem avoids_binary {op : Operator} {l r : Expr} :
    (binary op l r).Avoids ns ↔ l.Avoids ns ∧ r.Avoids ns := List.forall_mem_append

theorem Avoids.times {l r : Expr} (hl : l.Avoids ns) (hr : r.Avoids ns) : (times l r).Avoids ns := by
  unfold Expr.times
  split
  · exact hr
  · exact hl
  · exact avoids_binary.mpr ⟨hl, hr⟩

end Expr

theorem LengthModifier.avoids_bytes {m : LengthModifier} (h : m.expr.Avoids ns) : m.bytes.Avoids ns := by
  unfold bytes
  split
  · exact Expr.avoids_binary.mpr
      ⟨Expr.avoids_binary.mpr ⟨h, Expr.avoids_number 7⟩, Expr.avoids_number 8⟩
  · exact h

namespace DataOperand.Avoids

variable {op : DataOperand} (h : op.Avoids ns)
include h

theorem duplication : ∀ e ∈ op.duplication?, e.Avoids ns := fun e he => h e (by simp_all [exprs])

theorem scale : ∀ e ∈ op.scale?, e.Avoids ns := fun e he => h e (by simp_all [exprs])

theorem length : ∀ m ∈ op.length?, m.bytes.Avoids ns := fun m hm => by
  have hexpr : m.expr ∈ op.exprs := by simp_all [exprs]
  exact LengthModifier.avoids_bytes (h m.expr hexpr)

theorem lengthAmount (s : Assembly) (bounds : Int32 × Int32) (f : Frame) :
    (s.lengthAmount op bounds f).1.Avoids ns := by
  unfold Assembly.lengthAmount
  cases hm : op.length? with
  | none => exact Expr.avoids_number _
  | some m =>
    dsimp only
    split
    · split <;> exact Expr.avoids_number _
    · exact Expr.avoids_number _
    · exact h.length m hm

theorem duplicationAmount (s : Assembly) (f : Frame) : (s.duplicationAmount op f).1.Avoids ns := by
  unfold Assembly.duplicationAmount
  cases hd : op.duplication? with
  | none => exact Expr.avoids_number _
  | some e =>
    dsimp only
    split
    · exact Expr.avoids_number _
    · exact Expr.avoids_number _
    · exact h.duplication e hd

theorem attributeJobs {length : Amount} (hlength : length.Avoids ns) (label : Name)
    (attributes : SymbolAttributes) (bounds : Int32 × Int32) (f : Frame) :
    ∀ job ∈ Assembly.attributeJobs label op length attributes bounds f, job.task.Avoids ns := by
  intro job hjob
  rcases Assembly.cases_of_mem_attributeJobs hjob with ⟨e, rfl, rfl⟩ | ⟨e, hscale, rfl⟩ | rfl
  · rintro _ ⟨⟩
    exact hlength
  · rintro _ ⟨⟩
    exact h.scale e hscale
  · exact nofun

end DataOperand.Avoids

theorem Assembly.avoids_storageExpr (op : DataOperand) (label? : Option Name) {duplication length : Amount}
    (hd : duplication.Avoids ns) (hl : length.Avoids ns) :
    (storageExpr op label? duplication length).Avoids ns := by
  refine Expr.Avoids.times hd ?_
  cases length with
  | known n => exact Expr.avoids_number _
  | deferred e =>
    refine Expr.Avoids.times (Expr.avoids_number _) ?_
    cases label? with
    | none => exact hl
    | some label => exact Expr.avoids_attr (by decide) _

theorem Prerequisite.spares_space (s : SpaceId) : (space s).Spares ns := nofun

/-! ## 2. What computations wait for -/

namespace Evaluation

variable {α β : Type} {P : Prerequisite → Prop}

/-- Whether everything that a computation waits for is of a kind. -/
def WaitsFor (P : Prerequisite → Prop) (x : Evaluation α) : Prop :=
  ∀ waiting, x = .blocked waiting → ∀ key ∈ waiting, P key

theorem WaitsFor.map {x : Evaluation α} (h : x.WaitsFor P) (f : α → β) : (x.map f).WaitsFor P :=
  fun waiting hw => h waiting (map_eq_blocked.mp hw)

theorem WaitsFor.andThen {x : Evaluation α} (h : x.WaitsFor P) (instead : β) {f : α → Evaluation β}
    (hf : ∀ a, (f a).WaitsFor P) : (x.andThen instead f).WaitsFor P := by
  intro waiting hw
  rcases andThen_eq_blocked.mp hw with hx | ⟨a, -, ha⟩
  · exact h waiting hx
  · exact hf a waiting ha

theorem WaitsFor.both {x : Evaluation α} {y : Evaluation β} (hx : x.WaitsFor P) (hy : y.WaitsFor P) :
    (x.both y).WaitsFor P := by
  intro waiting hw key hkey
  rcases mem_both_blocked hw hkey with ⟨ps, hps, hmem⟩ | ⟨qs, hqs, hmem⟩
  · exact hx ps hps key hmem
  · exact hy qs hqs key hmem

theorem waitsFor_resolved (a : α) : (resolved a).WaitsFor P := fun _ h => nomatch h

theorem waitsFor_fallback (a : α) (fault : Fault) : (fallback a fault).WaitsFor P := fun _ h => nomatch h

theorem waitsFor_blocked {key : Prerequisite} (h : P key) : (blocked [key] : Evaluation α).WaitsFor P := by
  intro waiting hw other hother
  cases hw
  rw [List.mem_singleton.mp hother]
  exact h

theorem waitsFor_blockedOn (spaces : List SpaceId) :
    (blockedOn spaces : Evaluation α).WaitsFor (Prerequisite.Spares ns) := by
  intro waiting hw key hkey
  cases hw
  obtain ⟨space, -, rfl⟩ := List.mem_map.mp hkey
  exact Prerequisite.spares_space space

theorem waitsFor_ofExcept (x : Except (List SpaceId) α) :
    (ofExcept x).WaitsFor (Prerequisite.Spares ns) := by
  cases x with
  | ok a => exact waitsFor_resolved a
  | error spaces => exact waitsFor_blockedOn spaces

end Evaluation

open Evaluation (waitsFor_resolved waitsFor_fallback waitsFor_blocked waitsFor_blockedOn waitsFor_ofExcept)

theorem Value.waitsFor_settle (spaces : Spaces) (v : Value) :
    (v.settle spaces).WaitsFor (Prerequisite.Spares ns) := by
  unfold settle Address.settled
  split
  · exact waitsFor_resolved _
  · split
    · exact waitsFor_blockedOn _
    · exact waitsFor_resolved _

theorem Value.waitsFor_toNumber (v : Value) : v.toNumber.WaitsFor (Prerequisite.Spares ns) := by
  cases v with
  | absolute n => exact waitsFor_resolved n
  | relocatable a => exact waitsFor_fallback _ _

theorem Value.waitsFor_factor (spaces : Spaces) (v : Value) :
    (v.factor spaces).WaitsFor (Prerequisite.Spares ns) :=
  (v.waitsFor_settle spaces).andThen 0 Value.waitsFor_toNumber

theorem Length.waitsFor_settled (l : Length) : l.settled.WaitsFor (Prerequisite.Spares ns) := by
  unfold settled
  split
  · exact waitsFor_resolved _
  · exact waitsFor_blockedOn _

namespace Assembly

variable (s : Assembly)

theorem waitsFor_attributeOr {n : Name} {kind : AttributeKind} (hkind : kind ≠ .opcode) (value : Int32) :
    (s.attributeOr n kind value).WaitsFor (Prerequisite.Spares ns) := by
  intro waiting hw key hkey
  obtain ⟨-, rfl⟩ := attributeOr_eq_blocked.mp hw
  rw [List.mem_singleton.mp hkey]
  exact fun _ _ h => hkind (Prerequisite.attr.inj h).2

theorem waitsFor_slotAttribute {n : Name} {kind : AttributeKind} (hkind : kind ≠ .opcode) (slot : Slot Int32) :
    (s.slotAttribute kind n slot).WaitsFor (Prerequisite.Spares ns) := by
  cases slot with
  | known v => exact waitsFor_resolved v
  | pending => exact s.waitsFor_attributeOr hkind 0
  | absent => exact waitsFor_fallback _ _

theorem waitsFor_symbolAttribute (kind : AttributeKind) (sym : Symbol) (f : Frame) :
    (s.symbolAttribute kind sym f).WaitsFor (Prerequisite.Spares ns) := by
  cases kind with
  | type =>
    dsimp only [symbolAttribute]
    split <;> exact waitsFor_resolved _
  | length =>
    dsimp only [symbolAttribute]
    split
    · exact waitsFor_resolved _
    · exact s.waitsFor_attributeOr (by decide) 1
    · exact waitsFor_resolved _
  | scale => exact s.waitsFor_slotAttribute (by decide) _
  | integer => exact s.waitsFor_slotAttribute (by decide) _
  | defined =>
    dsimp only [symbolAttribute]
    split
    · exact waitsFor_resolved _
    · split
      · exact waitsFor_resolved _
      · exact waitsFor_blocked nofun
  | count | number | opcode => exact waitsFor_fallback _ _

theorem waitsFor_undefinedAttribute (kind : AttributeKind) (n : Name) :
    (s.undefinedAttribute kind n).WaitsFor (Prerequisite.Spares ns) := by
  cases kind with
  | length => exact s.waitsFor_attributeOr (by decide) _
  | type => exact s.waitsFor_attributeOr (by decide) _
  | scale => exact s.waitsFor_attributeOr (by decide) _
  | integer => exact s.waitsFor_attributeOr (by decide) _
  | defined => exact waitsFor_resolved _
  | count | number | opcode => exact waitsFor_fallback _ _

theorem waitsFor_opcodeAttribute {n : Name} (hn : ¬ ns n) :
    (s.opcodeAttribute n).WaitsFor (Prerequisite.Spares ns) := by
  intro waiting hw key hkey
  obtain ⟨-, -, rfl⟩ := opcodeAttribute_eq_blocked.mp hw
  rw [List.mem_singleton.mp hkey]
  exact fun m hm h => hn ((Prerequisite.attr.inj h).1 ▸ hm)

theorem waitsFor_attributeOf {kind : AttributeKind} {operand : AttributeOperand}
    (h : (Expr.attr kind operand).Avoids ns) (f : Frame) :
    (s.attributeOf kind operand f).WaitsFor (Prerequisite.Spares ns) := by
  cases operand with
  | variableSymbol n =>
    dsimp only [attributeOf, variableAttribute]
    split
    · exact waitsFor_fallback _ _
    · split
      · exact waitsFor_resolved _
      · exact waitsFor_resolved _
      · exact waitsFor_resolved _
      · exact waitsFor_fallback _ _
  | symbol n =>
    dsimp only [attributeOf]
    split
    · rename_i hkind
      rw [Expr.Avoids, Expr.opcodeTerms, if_pos hkind] at h
      exact s.waitsFor_opcodeAttribute (h n (List.mem_singleton_self n))
    · split
      · exact s.waitsFor_symbolAttribute _ _ _
      · exact s.waitsFor_undefinedAttribute _ _

theorem waitsFor_evaluateOpen {e : Expr} (he : e.Avoids ns) (f : Frame) :
    (e.evaluateOpen s.scope f).WaitsFor (Prerequisite.Spares ns) := by
  induction e with
  | number n => exact waitsFor_resolved _
  | symbol n =>
    unfold Expr.evaluateOpen
    split
    · exact waitsFor_resolved _
    · exact waitsFor_blocked nofun
  | attr kind operand => exact (s.waitsFor_attributeOf he f).map _
  | counter =>
    unfold Expr.evaluateOpen
    split
    · exact waitsFor_resolved _
    · exact waitsFor_fallback _ _
  | negate e ih => exact (ih he).map _
  | binary op l r ihl ihr =>
    obtain ⟨hl, hr⟩ := Expr.avoids_binary.mp he
    refine ((ihl hl).both (ihr hr)).andThen _ fun values => ?_
    cases op with
    | add | sub => exact waitsFor_resolved _
    | mul | div => exact ((values.1.waitsFor_factor _).both (values.2.waitsFor_factor _)).map _

theorem waitsFor_evaluate {e : Expr} (he : e.Avoids ns) (f : Frame) :
    (s.evaluate e f).WaitsFor (Prerequisite.Spares ns) := by
  have hopen := s.waitsFor_evaluateOpen he f
  unfold evaluate Expr.evaluate
  split
  · exact Value.waitsFor_settle _ _
  · exact hopen

theorem waitsFor_evaluateNumber {e : Expr} (he : e.Avoids ns) (f : Frame) :
    (s.evaluateNumber e f).WaitsFor (Prerequisite.Spares ns) :=
  (s.waitsFor_evaluate he f).andThen 0 Value.waitsFor_toNumber

theorem waitsFor_attemptInteger (n : Name) (type : DataType) :
    (s.attemptInteger n type).WaitsFor (Prerequisite.Spares ns) := by
  intro waiting hw key hkey
  obtain ⟨sym, -, -, rfl⟩ := attemptInteger_eq_blocked.mp hw
  rcases List.mem_append.mp hkey with hkey | hkey <;> split at hkey
  all_goals
    first
    | cases hkey
      done
    | rw [List.mem_singleton.mp hkey]
      exact nofun

theorem waitsFor_attemptSpace {rule : SpaceRule} (h : ∀ e ∈ rule.expr?, e.Avoids ns) (space : SpaceId) (f : Frame) :
    (s.attemptSpace space rule f).WaitsFor (Prerequisite.Spares ns) := by
  cases rule with
  | storage e => exact (s.waitsFor_evaluateNumber (h e rfl) f).map _
  | padding position reference alignment => exact (Length.waitsFor_settled _).map _
  | jump target position boundary offset =>
    refine Evaluation.WaitsFor.andThen ?_ _ fun a => (waitsFor_ofExcept _).map _
    refine (s.waitsFor_evaluate (h target rfl) f).andThen _ fun v => ?_
    cases v with
    | absolute n => exact waitsFor_fallback _ _
    | relocatable a =>
      dsimp only
      split
      · split
        · exact waitsFor_blocked (Prerequisite.spares_space space)
        · exact waitsFor_resolved _
      · exact waitsFor_fallback _ _
  | jumpToHighest candidates position => exact (waitsFor_ofExcept _).map _
  | counterStart candidates sectionStart alignment =>
    exact (waitsFor_ofExcept _).andThen _ fun highest => (Length.waitsFor_settled _).map _

theorem waitsFor_attemptCheck {rule : CheckRule} (h : (Task.check rule).Avoids ns) (f : Frame) :
    (s.attemptCheck rule f).WaitsFor (Prerequisite.Spares ns) := by
  cases rule with
  | notBelow origin target boundary offset =>
    have htarget := s.waitsFor_evaluate (h target rfl) f
    unfold attemptCheck
    dsimp only
    split
    · rename_i waiting heq
      rw [heq] at htarget
      exact fun _ hw => htarget _ (congrArg Evaluation.blocked (Evaluation.blocked.inj hw))
    · split
      · refine (waitsFor_ofExcept _).andThen _ fun place => ?_
        refine (Length.waitsFor_settled _).andThen _ fun gap => ?_
        split
        · exact waitsFor_fallback _ _
        · exact waitsFor_resolved _
      · exact waitsFor_resolved _
    · exact waitsFor_resolved _
  | lengthInRange e type min max =>
    have hlength := s.waitsFor_evaluateNumber (h e rfl) f
    unfold attemptCheck
    dsimp only
    split
    · rename_i waiting heq
      rw [heq] at hlength
      exact fun _ hw => hlength _ (congrArg Evaluation.blocked (Evaluation.blocked.inj hw))
    · split
      · exact waitsFor_resolved _
      · exact waitsFor_fallback _ _
    · exact waitsFor_resolved _

/-- A job does not wait for what its expression does not ask for. -/
theorem spares_of_attempt {job : Job} (hj : job.task.Avoids ns) {waiting : List Prerequisite}
    (h : s.attempt job = .blocked waiting) : ∀ key ∈ waiting, key.Spares ns := by
  obtain ⟨task, f⟩ := job
  cases task with
  | value n e => exact (s.waitsFor_evaluate (hj e rfl) f).map _ _ h
  | length n e rule =>
    refine Evaluation.WaitsFor.map ((s.waitsFor_evaluate (hj e rfl) f).andThen _ fun v => ?_) _ _ h
    cases v with
    | absolute n =>
      dsimp only
      split
      · exact waitsFor_resolved _
      · exact waitsFor_fallback _ _
    | relocatable a => exact waitsFor_fallback _ _
  | scale n e => exact (s.waitsFor_evaluateNumber (hj e rfl) f).map _ _ h
  | integer n type => exact (s.waitsFor_attemptInteger n type).map _ _ h
  | space space rule => exact (s.waitsFor_attemptSpace hj space f).map _ _ h
  | check rule => exact (s.waitsFor_attemptCheck hj f).map _ _ h

end Assembly

end Assembler
