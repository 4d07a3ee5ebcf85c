import Assembler.Proofs.Equation.Arithmetic
import Assembler.Proofs.Producer
/-!
Parameters of a program.

A parameter is a name that stands for one number from the moment on at which it has a value. An expression over a
parameter has the same value whenever it has one, and until then it waits for nothing but the parameter, and for
the length attribute of a label if it refers to one (`Assembly.evaluateNumber_over`).
-/

namespace Assembler

open Assembly Moment

/-! ## 1. Expressions over a parameter -/

namespace Expr

/-- Whether an expression is made of numbers, a name and the length attribute of a label. -/
def isOver (n : Name) (label? : Option Name) : Expr → Bool
  | number _ => true
  | symbol m => m = n
  | attr kind (.symbol l) => kind = .length && label? = some l
  | attr _ (.variableSymbol _) | counter => false
  | negate e => e.isOver n label?
  | binary _ l r => l.isOver n label? && r.isOver n label?

/-- The value of such an expression for given numbers in place of the name and of the attribute. -/
def valueAt (v length : Int32) : Expr → Int32
  | number k => k
  | symbol _ => v
  | attr _ _ => length
  | counter => 0
  | negate e => -e.valueAt v length
  | binary op l r => Int32.ofInt (op.exact (l.valueAt v length).toInt (r.valueAt v length).toInt)

end Expr

namespace Assembly

variable {s t : Assembly} {n : Name} {v : Int32} {label? : Option Name} {k : Nat} {e : Expr} {f : Frame}

/-- Whether a name has a number as its value, if it has a value at all. -/
def Sets (s : Assembly) (n : Name) (v : Int32) : Prop := ∀ w, s.scope.value? n = some w → w = .absolute v

theorem Sets.of_symbols (h : s.Sets n v) (hsymbols : t.symbols = s.symbols) : t.Sets n v := fun w hw => by
  have hw : (t.symbols.get? n).bind (·.value?) = some w := hw
  rw [hsymbols] at hw
  exact h w hw

/-- Whether a label has been entered, with a length attribute that is given or not known yet. -/
def Sizes (s : Assembly) (label? : Option Name) (k : Nat) : Prop :=
  ∀ l, label? = some l → ∃ sym, s.symbols.get? l = some sym ∧
    (sym.attributes.length = .pending ∨ sym.attributes.length = .known k)

/-- The length attribute of the label is its number, or has to be waited for. -/
theorem evaluateOpen_length (hn : s.Named) (hopen : s.finished = false) (hsize : s.Sizes label? k) {l : Name}
    (hl : label? = some l) (f : Frame) :
    (Expr.attr .length (.symbol l)).evaluateOpen s.scope f = .resolved (.absolute (Int32.ofNat k)) ∨
      (Expr.attr .length (.symbol l)).evaluateOpen s.scope f = .blocked [.attr l .length] := by
  obtain ⟨sym, hsym, hslot⟩ := hsize l hl
  have hattr : s.attributeOf .length (.symbol l) f = s.symbolAttribute .length sym f := by
    rw [attributeOf, if_neg (by decide), hsym]
  have heval : (Expr.attr .length (.symbol l)).evaluateOpen s.scope f =
      (s.symbolAttribute .length sym f).map .absolute := by
    rw [← hattr]
    rfl
  rcases hslot with hslot | hslot
  · refine .inr ?_
    rw [heval, symbolAttribute, hslot, hn l sym hsym]
    dsimp only
    rw [attributeOr, if_neg (by rw [hopen]; decide)]
    rfl
  · refine .inl ?_
    rw [heval, symbolAttribute, hslot]
    rfl

theorem evaluateOpen_over (hn : s.Named) (hopen : s.finished = false) (hset : s.Sets n v)
    (hsize : s.Sizes label? k) (he : e.isOver n label?) (f : Frame) :
    e.evaluateOpen s.scope f = .resolved (.absolute (e.valueAt v (Int32.ofNat k))) ∨
      ∃ waiting, e.evaluateOpen s.scope f = .blocked waiting ∧
        ∀ q ∈ waiting, q = .symbol n ∨ ∃ l, label? = some l ∧ q = .attr l .length := by
  induction e with
  | number k => exact .inl rfl
  | counter => cases he
  | symbol m =>
    have hm : m = n := of_decide_eq_true he
    subst hm
    cases hv : s.scope.value? m with
    | some w => exact .inl (by rw [Expr.evaluateOpen, hv, hset w hv]; rfl)
    | none =>
      refine .inr ⟨[.symbol m], by rw [Expr.evaluateOpen, hv], fun q hq => .inl ?_⟩
      exact List.mem_singleton.mp hq
  | attr kind operand =>
    cases operand with
    | variableSymbol m => cases he
    | symbol l =>
      rw [Expr.isOver, Bool.and_eq_true, decide_eq_true_eq, decide_eq_true_eq] at he
      obtain ⟨rfl, hl⟩ := he
      refine (evaluateOpen_length hn hopen hsize hl f).imp_right fun hblocked => ?_
      exact ⟨_, hblocked, fun q hq => .inr ⟨l, hl, List.mem_singleton.mp hq⟩⟩
  | negate e ih =>
    rw [Expr.evaluateOpen]
    rcases ih he with heval | ⟨waiting, heval, hmem⟩
    · exact .inl (by rw [heval]; rfl)
    · exact .inr ⟨waiting, by rw [heval]; rfl, hmem⟩
  | binary op l r ihl ihr =>
    rw [Expr.isOver, Bool.and_eq_true] at he
    rw [Expr.evaluateOpen]
    -- Both operands are known, or what the expression waits for comes from one of them or from both.
    rcases ihl he.1 with hl | ⟨ps, hl, hps⟩ <;> rcases ihr he.2 with hr | ⟨qs, hr, hqs⟩
    · refine .inl ?_
      rw [hl, hr]
      exact op.apply_absolute _ _ _
    · exact .inr ⟨qs, by rw [hl, hr]; rfl, hqs⟩
    · exact .inr ⟨ps, by rw [hl, hr]; rfl, hps⟩
    · refine .inr ⟨Evaluation.union ps qs, by rw [hl, hr]; rfl, fun q hq => ?_⟩
      exact (Evaluation.mem_union.mp hq).elim (hps q) (hqs q)

/-- An expression over a parameter has its value or waits for the parameter or for the attribute. -/
theorem evaluate_over (hn : s.Named) (hopen : s.finished = false) (hset : s.Sets n v)
    (hsize : s.Sizes label? k) (he : e.isOver n label?) (f : Frame) :
    s.evaluate e f = .resolved (.absolute (e.valueAt v (Int32.ofNat k))) ∨
      ∃ waiting, s.evaluate e f = .blocked waiting ∧
        ∀ q ∈ waiting, q = .symbol n ∨ ∃ l, label? = some l ∧ q = .attr l .length := by
  rcases evaluateOpen_over hn hopen hset hsize he f with heval | ⟨waiting, heval, hmem⟩
  · exact .inl (by rw [evaluate, Expr.evaluate, heval]; rfl)
  · exact .inr ⟨waiting, by rw [evaluate, Expr.evaluate, heval], hmem⟩

theorem evaluateNumber_over (hn : s.Named) (hopen : s.finished = false) (hset : s.Sets n v)
    (hsize : s.Sizes label? k) (he : e.isOver n label?) (f : Frame) :
    s.evaluateNumber e f = .resolved (e.valueAt v (Int32.ofNat k)) ∨
      ∃ waiting, s.evaluateNumber e f = .blocked waiting ∧
        ∀ q ∈ waiting, q = .symbol n ∨ ∃ l, label? = some l ∧ q = .attr l .length := by
  rcases evaluate_over hn hopen hset hsize he f with heval | ⟨waiting, heval, hmem⟩
  · refine .inl ?_
    show (s.evaluate e f).andThen 0 Value.toNumber = _
    rw [heval]
    rfl
  · refine .inr ⟨waiting, ?_, hmem⟩
    show (s.evaluate e f).andThen 0 Value.toNumber = _
    rw [heval]
    rfl

theorem usesCounter_of_constant (h : e.compute? (fun _ => none) = some v) : e.usesCounter = false := by
  induction e generalizing v with
  | number | symbol => rfl
  | attr | counter => cases h
  | negate e ih =>
    obtain ⟨x, hx, -⟩ := Option.map_eq_some_iff.mp h
    exact ih hx
  | binary op l r ihl ihr =>
    obtain ⟨x, hx, h⟩ := Option.bind_eq_some_iff.mp h
    obtain ⟨y, hy, -⟩ := Option.map_eq_some_iff.mp h
    rw [Expr.usesCounter, ihl hx, ihr hy]
    rfl

/-- An expression without names has its value everywhere. -/
theorem evaluateOpen_constant (h : e.compute? (fun _ => none) = some v) :
    e.evaluateOpen s.scope f = .resolved (.absolute v) := by
  induction e generalizing v with
  | number k =>
    cases h
    rfl
  | symbol | attr | counter => cases h
  | negate e ih =>
    obtain ⟨x, hx, rfl⟩ := Option.map_eq_some_iff.mp h
    rw [Expr.evaluateOpen, ih hx, Int32.ofInt_neg, Int32.ofInt_toInt]
    rfl
  | binary op l r ihl ihr =>
    obtain ⟨x, hx, h⟩ := Option.bind_eq_some_iff.mp h
    obtain ⟨y, hy, rfl⟩ := Option.map_eq_some_iff.mp h
    rw [Expr.evaluateOpen, ihl hx, ihr hy]
    exact op.apply_absolute _ x y

theorem evaluate_constant (h : e.compute? (fun _ => none) = some v) :
    s.evaluate e f = .resolved (.absolute v) := by
  rw [evaluate, Expr.evaluate, evaluateOpen_constant h]
  rfl

end Assembly

/-! ## 2. A parameter on the way -/

namespace Assembly

variable {s t : Assembly} {n : Name} {key : Prerequisite}

/-- What is to be filled in of a symbol has been so as long as the symbol has been there. -/
theorem Expects.of_later (h : t.Expects key) (hst : s.Earlier t)
    (hname : key = .symbol n ∨ key = .attr n .length) (hin : s.symbols.get? n ≠ none) : s.Expects key := by
  obtain ⟨sym, hsym⟩ := Option.ne_none_iff_exists'.mp hin
  obtain ⟨later, hlater, hle⟩ := hst.symbols n sym hsym
  rcases hname with rfl | rfl <;> obtain ⟨other, hother, hopen⟩ := h <;> rw [hlater] at hother <;> cases hother
  · exact ⟨sym, hsym, hle.value.elim id fun heq => heq.symm.trans hopen⟩
  · exact ⟨sym, hsym, hle.length.elim id fun heq => heq.symm.trans hopen⟩

/-- A value that is defined for a symbol without one is its value from then on. -/
theorem value?_establish {v : Value} (hexp : s.Expects (.symbol n)) :
    (s.establish (.value n v)).scope.value? n = some (v.simplify s.layout.spaces) := by
  obtain ⟨t, ht⟩ := @exists_define? s (.value n v) _ hexp rfl fun _ _ h => nomatch h
  have hvalue : t.scope.value? n = some (v.simplify s.layout.spaces) := by
    rcases define?_eq_some ht with ⟨m, sym, sym', symbols, -, hfill, hget, rfl⟩ | ⟨_, _, _, h, -⟩
    · cases hfill
      show (symbols.get? n).bind (·.value?) = _
      rw [hget, if_pos rfl]
      rfl
    · cases h
  rw [establish, ht]
  exact hvalue

end Assembly

namespace Moment

variable {m m' : Moment} {n : Name} {v : Int32} {job : Job} {key : Prerequisite}

/-- A job with a result is done with it. -/
theorem Finishes.resolved (h : m.Finishes m' job) {d : Definition} (hd : m.state.attempt job = .resolved d) :
    m'.state = m.state.establish d := by
  cases h with
  | settle id? _ heq =>
    rw [heq, settle_resolved hd]
  | conclude explained _ _ heq =>
    rw [heq, conclude_resolved hd]

/-- Whether every job that produces a parameter gives it its number, and none of them has to wait. -/
structure Sets (m : Moment) (n : Name) (v : Int32) : Prop where
  valid : m.Valid
  value : m.state.Sets n v
  sole : ∀ job, m.Carries job → job.task.product? = some (.symbol n) →
    ∃ e, job.task = .value n e ∧ e.compute? (fun _ => none) = some v
  free : ∀ id p, m.state.pendings.get? id = some p → p.work.task.product? ≠ some (.symbol n)

/-- A job for something that is to be filled in of a symbol has been there before, if the symbol has. -/
theorem Carries.of_step (hc : m'.Carries job) (hv : m.Valid) (h : Step m m')
    (hkey : job.task.product? = some key) (hname : key = .symbol n ∨ key = .attr n .length)
    (hkept : m.state.symbols.get? n ≠ none ∨ m'.state.symbols.get? n = none) : m.Carries job := by
  have hexp := (hv.step h).expected_of_hasJob (hc.hasJob (hv.step h) hkey)
  refine Step.carries h (hexp.of_later h.grows.earlier hname ?_) (fun space => ?_) hc hkey
  · refine hkept.resolve_right fun hnone => ?_
    rcases hname with rfl | rfl
    · obtain ⟨sym, hsym, -⟩ := hexp
      rw [hnone] at hsym
      cases hsym
    · obtain ⟨sym, hsym, -⟩ := hexp
      rw [hnone] at hsym
      cases hsym
  · rcases hname with rfl | rfl <;> exact Prerequisite.noConfusion

/-- Steps keep this, unless they enter the parameter. -/
theorem Sets.step (hs : m.Sets n v) (h : Step m m')
    (hkept : m.state.symbols.get? n ≠ none ∨ m'.state.symbols.get? n = none) : m'.Sets n v := by
  have hsole : ∀ job, m'.Carries job → job.task.product? = some (.symbol n) →
      ∃ e, job.task = .value n e ∧ e.compute? (fun _ => none) = some v :=
    fun job hc hkey => hs.sole job (hc.of_step hs.valid h hkey (.inl rfl) hkept) hkey
  refine ⟨hs.valid.step h, fun w hw => ?_, hsole, fun id p hp hkey => ?_⟩
  · obtain ⟨sym', hsym', hw'⟩ := Option.bind_eq_some_iff.mp hw
    have hin : m.state.symbols.get? n ≠ none := hkept.resolve_right fun hnone => by
      rw [hnone] at hsym'
      cases hsym'
    obtain ⟨sym, hsym⟩ := Option.ne_none_iff_exists'.mp hin
    obtain ⟨later, hlater, hle⟩ := h.grows.earlier.symbols n sym hsym
    rw [hsym'] at hlater
    cases hlater
    rcases hle.value with hnone | heq
    · -- The value has come with this step, from a job for it.
      have hexp : m.state.Expects (.symbol n) := ⟨sym, hsym, hnone⟩
      obtain ⟨job, hc, hkey⟩ := (hs.valid.owed _ hexp trivial).exists_carries hs.valid
      obtain ⟨e, he, hconst⟩ := hs.sole job hc hkey
      have hattempt : m.state.attempt job = .resolved (.value n (.absolute v)) := by
        rw [attempt, he]
        dsimp only
        rw [evaluate_constant hconst]
        rfl
      rcases hs.valid.carries_step h hc with hc' | hdone | ⟨hnone, -⟩
      · obtain ⟨other, hother, hv'⟩ := (hs.valid.step h).expected_of_hasJob (hc'.hasJob (hs.valid.step h) hkey)
        rw [hsym'] at hother
        cases hother
        rw [hw'] at hv'
        cases hv'
      · have hvalue := @value?_establish _ n (.absolute v) hexp
        rw [← hdone.resolved hattempt, hw] at hvalue
        exact Option.some.inj hvalue
      · rw [hnone] at hkey
        cases hkey
    · exact hs.value w (by
        show (m.state.symbols.get? n).bind (·.value?) = some w
        rw [hsym]
        exact heq.symm.trans hw')
  · rcases Step.pending h hp with hp | ⟨x, hx, hwork, hblocked⟩
    · exact hs.free id p hp hkey
    · obtain ⟨e, he, hconst⟩ := hs.sole p.work (.inl ⟨x, hx, hwork⟩) hkey
      rw [attempt, he] at hblocked
      dsimp only at hblocked
      rw [evaluate_constant hconst] at hblocked
      cases hblocked

/-- The steps before the end of the source at which a parameter keeps its number. -/
structure Approach (n : Name) (v : Int32) (m m' : Moment) : Prop where
  step : Step m m'
  before : m.Sets n v
  after : m'.Sets n v
  finished : m'.state.finished = false

theorem get?_ne_none_of_run (h : Run Step m m') (hin : m.state.symbols.get? n ≠ none) :
    m'.state.symbols.get? n ≠ none := by
  obtain ⟨sym, hsym⟩ := Option.ne_none_iff_exists'.mp hin
  obtain ⟨later, hlater, -⟩ := h.grows.earlier.symbols n sym hsym
  rw [hlater]
  exact Option.some_ne_none later

theorem finished_of_run (h : Run Step m m') (hopen : m'.state.finished = false) :
    m.state.finished = false := by
  cases hf : m.state.finished with
  | false => rfl
  | true =>
    rw [h.grows.finished hf] at hopen
    cases hopen

/-- A run that does not enter the parameter leaves it its number. -/
theorem Sets.approach (hs : m.Sets n v) (h : Run Step m m') (hopen : m'.state.finished = false)
    (hkept : m.state.symbols.get? n ≠ none ∨ m'.state.symbols.get? n = none) :
    Run (Approach n v) m m' ∧ m'.Sets n v := by
  induction h with
  | refl => exact ⟨.refl _, hs⟩
  | @tail a b hrun hstep ih =>
    have hback : b.state.symbols.get? n = none → a.state.symbols.get? n = none := fun hnone =>
      Classical.byContradiction fun hin => get?_ne_none_of_run (.single hstep) hin hnone
    obtain ⟨hfirst, hset⟩ := ih (finished_of_run (.single hstep) hopen) (hkept.imp_right hback)
    have hlast := hset.step hstep (hkept.imp_left (get?_ne_none_of_run hrun))
    exact ⟨.tail hfirst ⟨hstep, hset, hlast, hopen⟩, hlast⟩

/-- A name that has not been entered has every number. -/
theorem Valid.sets (hv : m.Valid) (hnone : m.state.symbols.get? n = none) (v : Int32) : m.Sets n v := by
  have hno : ∀ job, m.Carries job → job.task.product? ≠ some (.symbol n) := fun job hc hkey => by
    obtain ⟨sym, hsym, -⟩ := hv.expected_of_hasJob (hc.hasJob hv hkey)
    rw [hnone] at hsym
    cases hsym
  refine ⟨hv, fun w hw => ?_, fun job hc hkey => absurd hkey (hno job hc), fun id p hp => ?_⟩
  · obtain ⟨sym, hsym, -⟩ := Option.bind_eq_some_iff.mp hw
    rw [hnone] at hsym
    cases hsym
  · exact hno p.work (.inr ⟨id, p, hp, rfl⟩)

end Moment

/-! ## 3. Statements -/

namespace Assembly

variable {s t u : Assembly} {st : Statement} {n : Name} {v : Int32}

/-- Whether a parameter has its number. -/
def Has (s : Assembly) (n : Name) (v : Int32) : Prop := s.scope.value? n = some (.absolute v)

/-- Between commands no job is at hand. -/
abbrev AtRest (s : Assembly) (n : Name) (v : Int32) : Prop := Moment.Sets ⟨s, [], .reading⟩ n v

/-- A statement with another label does not enter the parameter. -/
theorem Acts.get?_eq_none (hacts : Acts st s t) (hn : st.label? ≠ some n) (h : s.symbols.get? n = none) :
    t.symbols.get? n = none := by
  induction hacts with
  | refl => exact h
  | tail _ hact ih =>
    refine hact.get?_eq_none ih ?_
    rintro ⟨sym, jobs, u, -, hsupplies, -, rfl⟩
    exact hn hsupplies.label

/-- When no job is at hand, a parameter that has been entered has its number. -/
theorem has_of_sets {phase : Phase} (h : Moment.Sets ⟨s, [], phase⟩ n v) (hin : s.symbols.get? n ≠ none) :
    s.Has n v := by
  obtain ⟨sym, hsym⟩ := Option.ne_none_iff_exists'.mp hin
  cases hv : s.scope.value? n with
  | some w => exact hv.trans (congrArg some (h.value w hv))
  | none =>
    have hnone : sym.value? = none := by
      have hbind : (s.symbols.get? n).bind (·.value?) = none := hv
      rw [hsym] at hbind
      exact hbind
    rcases h.valid.owed (.symbol n) ⟨sym, hsym, hnone⟩ trivial with hprod | ⟨x, hx, -⟩
    · obtain ⟨id, hid⟩ := Option.isSome_iff_exists.mp hprod
      obtain ⟨p, hp, hkey⟩ := (h.valid.indexed.producers (.symbol n) id).mp hid
      exact absurd hkey (h.free id p hp)
    · cases hx

/-- A name that is free can be entered. -/
theorem exists_createSymbol? {sym : Symbol} (hnone : s.symbols.get? sym.name = none) :
    ∃ t, s.createSymbol? sym = some t := by
  have hfree : ¬ s.symbols.contains sym.name := by simp [SymbolTable.contains, hnone]
  rw [createSymbol?, SymbolTable.create?, if_neg hfree]
  exact ⟨_, rfl⟩

/-- A parameter that is not entered keeps its number. -/
theorem Launches.approach {jobs : List Job} (h : s.Launches jobs u t) (hopen : s.finished = false)
    (hrest : s.AtRest n v) (hkept : s.symbols.get? n ≠ none ∨ u.symbols.get? n = none) :
    Approach n v ⟨s, [], .reading⟩ ⟨u, jobs.map (none, ·), .reading⟩ ∧
      Run (Approach n v) ⟨u, jobs.map (none, ·), .reading⟩ ⟨t, [], .reading⟩ ∧ t.AtRest n v := by
  have hsets := hrest.step (.progress h.enter) hkept
  have hstart : Approach n v ⟨s, [], .reading⟩ ⟨u, jobs.map (none, ·), .reading⟩ :=
    ⟨.progress h.enter, hrest, hsets, (Advance.finished (.progress h.enter)).trans hopen⟩
  refine ⟨hstart, hsets.approach (h.cascade.imp fun _ _ => .cascade) (h.finished.trans hopen) ?_⟩
  by_cases hin : u.symbols.get? n = none
  · exact .inr (get?_eq_none_of_run (fun _ _ => Cascade.get?_eq_none) h.cascade hin)
  · exact .inl hin

/-- The label of an equation is entered without a value, and its only job is the one that is at hand. -/
theorem launches_equation (hs : s.Ready) {eq : Equation} (hnone : s.symbols.get? eq.label = none)
    (hconst : eq.value.compute? (fun _ => none) = some v) :
    ∃ u, s.Launches [eq.job] u (s.process eq.statement) ∧ u.symbols.get? eq.label ≠ none ∧
      Moment.Sets ⟨u, [(none, eq.job)], .reading⟩ eq.label v := by
  obtain ⟨t, ht⟩ := @exists_createSymbol? s (eq.symbol (s.impliedLength (some eq.value))) hnone
  have hprocess : s.process eq.statement = t.resolveAll [eq.job] :=
    process_equ_of_createSymbol? rfl rfl (usesCounter_of_constant hconst) ht
  obtain ⟨symbols, hsym, henter, hrun⟩ := @exists_enter s t _ [eq.job] ht (fun _ h => nomatch h)
    (fun job hjob => by
      rw [List.mem_singleton.mp hjob]
      exact ⟨scoped_frame _ _, trivial⟩)
    (List.Sublist.refl _) fun key hkey => .inl hkey
  have hwake := alike_foldl_wake { s with symbols } (provided (eq.symbol (s.impliedLength (some eq.value))))
  have hreports := diagnostics_foldl_wake { s with symbols }
    (provided (eq.symbol (s.impliedLength (some eq.value))))
  have hget : ((provided (eq.symbol (s.impliedLength (some eq.value)))).foldl wake
      { s with symbols }).symbols.get? eq.label = some (eq.symbol (s.impliedLength (some eq.value))) := by
    rw [hwake.symbols]
    exact ((SymbolTable.create?_eq_some hsym).2 _).trans (if_pos rfl)
  generalize (provided (eq.symbol (s.impliedLength (some eq.value)))).foldl wake { s with symbols } = u
    at henter hrun hwake hreports hget
  rw [hprocess]
  refine ⟨u, ⟨henter, hwake.pendings, hreports, hrun⟩, hget ▸ Option.some_ne_none _, ?_⟩
  -- The label is new, so nothing that has been pending produces its value.
  have hpending : ∀ id p, u.pendings.get? id = some p → p.work.task.product? ≠ some (.symbol eq.label) := by
    intro id p hp hkey
    rw [hwake.pendings] at hp
    obtain ⟨sym, hin, -⟩ := (hs.valid.entries id p hp).expected _ hkey
    rw [hnone] at hin
    cases hin
  refine ⟨hs.valid.progress henter, fun w hw => ?_, fun job hc hkey => ?_, hpending⟩
  · have hnovalue : u.scope.value? eq.label = none := by
      show (u.symbols.get? eq.label).bind (·.value?) = none
      rw [hget]
      rfl
    rw [show u.scope.value? eq.label = some w from hw] at hnovalue
    cases hnovalue
  · rcases hc with ⟨x, hx, rfl⟩ | ⟨id, p, hp, rfl⟩
    · rw [List.mem_singleton.mp hx]
      exact ⟨eq.value, rfl, hconst⟩
    · exact absurd hkey (hpending id p hp)

/-- An equation gives the parameter its number. -/
theorem approach_equation (hs : s.Ready) (hopen : s.finished = false) {eq : Equation}
    (hnone : s.symbols.get? eq.label = none) (hconst : eq.value.compute? (fun _ => none) = some v) :
    Run (Approach eq.label v) ⟨s, [], .reading⟩ ⟨s.process eq.statement, [], .reading⟩ ∧
      (s.process eq.statement).AtRest eq.label v ∧
      (s.process eq.statement).symbols.get? eq.label ≠ none := by
  obtain ⟨u, hlaunch, hin, hsets⟩ := launches_equation hs hnone hconst
  have hcascade := hlaunch.cascade.imp fun _ _ => Step.cascade
  obtain ⟨hrest, hlast⟩ := hsets.approach hcascade (hlaunch.finished.trans hopen) (.inl hin)
  have hstart : Approach eq.label v ⟨s, [], .reading⟩ ⟨u, [(none, eq.job)], .reading⟩ :=
    ⟨.progress hlaunch.enter, hs.valid.sets hnone v, hsets,
      (Advance.finished (.progress hlaunch.enter)).trans hopen⟩
  exact ⟨.trans (.single hstart) hrest, hlast, get?_ne_none_of_run hcascade hin⟩

/-- Any other statement leaves the parameter its number. -/
theorem approach_process (hs : s.Ready) (hopen : s.finished = false) {eq : Equation}
    (hrest : s.AtRest eq.label v) (hconst : eq.value.compute? (fun _ => none) = some v)
    (hst : st.label? = some eq.label → st = eq.statement) :
    Run (Approach eq.label v) ⟨s, [], .reading⟩ ⟨s.process st, [], .reading⟩ ∧
      (s.process st).AtRest eq.label v := by
  have hleads := leads_process hs st
  by_cases hin : s.symbols.get? eq.label = none
  · by_cases hlabel : st.label? = some eq.label
    · rw [hst hlabel]
      have happroach := approach_equation hs hopen hin hconst
      exact ⟨happroach.1, happroach.2.1⟩
    · exact hrest.approach hleads.steps (hleads.finished.trans hopen)
        (.inr ((acts_process hs st).get?_eq_none hlabel hin))
  · exact hrest.approach hleads.steps (hleads.finished.trans hopen) (.inl hin)

/-- The further location counters leave it its number, too. -/
theorem approach_placing (hopen : s.finished = false) (hrest : s.AtRest n v)
    (hin : s.symbols.get? n ≠ none) :
    Run (Approach n v) ⟨s, [], .reading⟩ ⟨s.placeCounters.drainAll, [], .placing⟩ ∧
      Moment.Sets ⟨s.placeCounters.drainAll, [], .placing⟩ n v := by
  have hplace : Run Step ⟨s, [], .reading⟩ ⟨s.placeCounters.drainAll, [], .placing⟩ :=
    (Run.single (.ending (.place hopen))).trans (s.run_placeCounters.imp fun _ _ => .cascade)
  exact hrest.approach hplace (s.run_placeCounters.steady.finished.trans hopen) (.inl hin)

end Assembly

/-! ## 4. Sessions -/

namespace Session

open Assembly

variable {s : Session} {eq : Equation} {v : Int32} {commands more : List Command}

/-- Whether the commands do not get to the end of the source, and all statements with the parameter as their label
are one and the same equation. -/
structure Defines (eq : Equation) (commands : List Command) : Prop where
  sole : ∀ st, .process st ∈ commands → st.label? = some eq.label → st = eq.statement
  unfinished : .finish ∉ commands

theorem Defines.of_subset (h : Defines eq commands) (hsub : more ⊆ commands) : Defines eq more :=
  ⟨fun st hmem => h.sole st (hsub hmem), fun hmem => h.unfinished (hsub hmem)⟩

theorem approach_perform (hs : s.assembly.Ready) (hopen : s.assembly.finished = false)
    (hrest : s.assembly.AtRest eq.label v) (hconst : eq.value.compute? (fun _ => none) = some v)
    {c : Command} (hc : Defines eq [c]) :
    Run (Approach eq.label v) ⟨s.assembly, [], .reading⟩ ⟨(s.perform c).assembly, [], .reading⟩ ∧
      (s.perform c).assembly.AtRest eq.label v := by
  by_cases hst : ∃ st, c = .process st
  · obtain ⟨st, rfl⟩ := hst
    exact approach_process hs hopen hrest hconst (hc.sole st List.mem_cons_self)
  · have hleads := leads_perform hs fun heq => hc.unfinished (List.mem_singleton.mpr heq.symm)
    refine hrest.approach hleads.steps (hleads.finished.trans hopen) ?_
    by_cases hin : s.assembly.symbols.get? eq.label = none
    · exact .inr (get?_perform_eq_none hs c (fun st heq => hst ⟨st, heq⟩) hin)
    · exact .inl hin

theorem approach_performAll (hs : s.assembly.Ready) (hopen : s.assembly.finished = false)
    (hrest : s.assembly.AtRest eq.label v) (hconst : eq.value.compute? (fun _ => none) = some v)
    (hdefines : Defines eq commands) :
    Run (Approach eq.label v) ⟨s.assembly, [], .reading⟩ ⟨(s.performAll commands).assembly, [], .reading⟩ ∧
      (s.performAll commands).assembly.AtRest eq.label v := by
  induction commands generalizing s with
  | nil => exact ⟨.refl _, hrest⟩
  | cons c rest ih =>
    have hc : Defines eq [c] := hdefines.of_subset (List.cons_subset_cons c (List.nil_subset rest))
    obtain ⟨hfirst, hnext⟩ := approach_perform hs hopen hrest hconst hc
    have hleads := leads_perform hs fun heq => hc.unfinished (List.mem_singleton.mpr heq.symm)
    obtain ⟨hrun, hlast⟩ := @ih (s.perform c) (hleads.ready hs) (hleads.finished.trans hopen) hnext
      (hdefines.of_subset (List.subset_cons_self c rest))
    exact ⟨hfirst.trans hrun, hlast⟩

/-- After its equation the parameter is there. -/
theorem get?_ne_none_of_mem (hs : s.assembly.Ready) (hopen : s.assembly.finished = false)
    (hconst : eq.value.compute? (fun _ => none) = some v) (hfinish : .finish ∉ commands)
    (hmem : .process eq.statement ∈ commands) :
    (s.performAll commands).assembly.symbols.get? eq.label ≠ none := by
  induction commands generalizing s with
  | nil => cases hmem
  | cons c rest ih =>
    have hleads := leads_perform hs (List.ne_of_not_mem_cons hfinish).symm
    have hready := hleads.ready hs
    have hrest := List.not_mem_of_not_mem_cons hfinish
    rcases List.mem_cons.mp hmem with rfl | hmem
    · refine get?_ne_none_of_run (@leads_performAll (s.perform (.process eq.statement)) hready rest hrest).steps ?_
      by_cases hin : s.assembly.symbols.get? eq.label = none
      · exact (approach_equation hs hopen hin hconst).2.2
      · exact get?_ne_none_of_run hleads.steps hin
    · exact @ih (s.perform c) hready (hleads.finished.trans hopen) hrest hmem

end Session

end Assembler
