import Assembler.Proofs.Completion
import Assembler.Proofs.Constancy
import Assembler.Proofs.Equation.Solution
/-!
Final values of symbols.

The value that EQU gives to a symbol is the result of the expression at some moment. If the attributes that
the expression asks for are known at that moment, its result stays the same (`Assembly.Agrees.later`), except
for the lengths that are put in. Before the end of the source they are known; so a symbol ends with a value
that agrees with its expression at the end, unless one of these attributes becomes known only after the end of
the source has been reached (`Session.agrees_of_finish`).
-/

namespace Assembler

open Assembly Moment

/-! ## 1. Values that agree with their expressions -/

namespace Value

variable {a b : Spaces}

theorem normalize_normalize (hab : a.Earlier b) (hb : b.Acyclic) (v : Value) :
    (v.normalize a).normalize b = v.normalize b := by
  cases v with
  | absolute n => rfl
  | relocatable x => simp only [normalize, Address.normalize_normalize hab hb x]

/-- A result has all lengths put in that are known. -/
theorem simplify_of_settle (ha : a.Acyclic) {v w : Value} (h : v.settle a = .resolved w) :
    w.simplify a = w ∧ w.normalize a = w := by
  rcases settle_eq_resolved h with ⟨n, -, rfl⟩ | ⟨x, -, -, rfl⟩
  · exact ⟨rfl, rfl⟩
  · by_cases habs : x.isAbsolute
    · rw [if_pos habs]
      exact ⟨rfl, rfl⟩
    · have hnormal := Address.normalize_normalize (.refl a) ha x
      rw [if_neg habs]
      simp only [simplify, normalize, hnormal, Address.isAbsolute_normalize]
      exact ⟨if_neg fun hand => habs hand.1, trivial⟩

end Value

namespace Assembly

variable {s t : Assembly} {n : Name} {e : Expr} {f : Frame}

theorem simplify_of_evaluate (ha : s.layout.spaces.Acyclic) {w : Value}
    (h : s.evaluate e f = .resolved w) :
    w.simplify s.layout.spaces = w ∧ w.normalize s.layout.spaces = w := by
  simp only [evaluate, Expr.evaluate] at h
  split at h
  · exact Value.simplify_of_settle ha h
  · rename_i hno
    exact absurd h (hno w)

/-- Whether the value of a symbol is that of an expression now. -/
def Agrees (s : Assembly) (n : Name) (e : Expr) (f : Frame) : Prop :=
  ∃ sym v, s.symbols.get? n = some sym ∧ s.valueOf? sym = some v ∧ s.evaluate e f = .resolved v

theorem Agrees.later (h : s.Agrees n e f) (hst : s.Earlier t) (ha : s.layout.spaces.Acyclic)
    (hb : t.layout.spaces.Acyclic) (he : e.isPlain) (hknown : s.Informs e) : t.Agrees n e f := by
  obtain ⟨sym, v, hsym, hv, heval⟩ := h
  obtain ⟨stored, hstored, rfl⟩ := Option.map_eq_some_iff.mp hv
  obtain ⟨later, hlater, hle⟩ := hst.symbols n sym hsym
  refine ⟨later, stored.normalize t.layout.spaces, hlater, by rw [valueOf?, hle.value_eq hstored]; rfl, ?_⟩
  rw [evaluate_later hst ha hb he hknown heval, Value.normalize_normalize hst.spaces hb]

/-- The job of a value leaves a value that agrees with its expression, or a report. -/
theorem Does.agrees (h : s.Does ⟨.value n e, f⟩ t) (hs : s.WellFormed)
    (hlog : s.reported ≠ [] → s.diagnostics ≠ []) (hexp : s.Expects (.symbol n))
    (he : e.isPlain) (hknown : s.finished → s.Informs e) :
    t.diagnostics ≠ [] ∨ t.Agrees n e f ∧ t.Informs e := by
  cases h with
  | instead u d hsu hreport hval heq =>
    refine .inl ?_
    rw [heq, diagnostics_establish]
    exact hreport hlog
  | result d hd heq =>
    refine .inr ?_
    obtain ⟨w, heval, rfl⟩ := Evaluation.map_eq_resolved.mp hd
    have hinformed : s.Informs e := by
      cases hf : s.finished with
      | true => exact hknown hf
      | false => exact informs_of_evaluate hs.named hf he (Evaluation.not_isBlocked_of_resolved heval)
    obtain ⟨sym, hsym, hnone⟩ := hexp
    -- The value is in normal form, so it is stored as it is.
    obtain ⟨hsimplify, hnormal⟩ := simplify_of_evaluate hs.acyclic heval
    have hst : s.Earlier t := by
      rw [heq]
      exact (s.grows_establish _).earlier
    rw [establish, define?_value hsym hnone, hsimplify] at heq
    have hget : t.symbols.get? n = some { sym with value? := some w } := by
      rw [heq]
      exact (SymbolTable.get?_insert _ _ _ _).trans (if_pos rfl)
    have hspaces : t.layout.spaces = s.layout.spaces := by
      rw [heq]
      rfl
    have hacyclic : t.layout.spaces.Acyclic := hspaces ▸ hs.acyclic
    have hvalue : t.valueOf? { sym with value? := some w } = some (w.normalize t.layout.spaces) := rfl
    exact ⟨⟨_, _, hget, hvalue, evaluate_later hst hs.acyclic hacyclic he hinformed heval⟩,
      hinformed.later hst⟩

end Assembly

/-! ## 2. From the statement to the end of the source -/

/-- Whether the value of a symbol is still to come from the expression `e`, or agrees with it, or there is some
report. -/
structure Moment.Derives (n : Name) (e : Expr) (f : Frame) (m : Moment) : Prop where
  valid : m.Valid
  logged : m.state.reported ≠ [] → m.state.diagnostics ≠ []
  informed : m.state.finished → m.state.Informs e
  value : (m.state.Expects (.symbol n) ∧
      ∀ job, m.Carries job → job.task.product? = some (.symbol n) → job = ⟨.value n e, f⟩) ∨
    m.state.diagnostics ≠ [] ∨ (m.state.Agrees n e f ∧ m.state.Informs e)

namespace Moment

variable {n : Name} {e : Expr} {f : Frame} {m m' : Moment}

theorem Derives.step (h : m.Derives n e f) (he : e.isPlain) (hstep : Step m m')
    (hin : m'.state.finished → m'.state.Informs e) : m'.Derives n e f := by
  have hgrows := hstep.grows
  have hvalid := h.valid.step hstep
  refine ⟨hvalid, hgrows.logged h.logged, hin, ?_⟩
  rcases h.value with ⟨hexp, hsole⟩ | hreport | ⟨hagrees, hknown⟩
  · -- The value is still to come, or the job has been done that gives it.
    rcases Step.does hstep hexp (fun _ => Prerequisite.noConfusion) with hexp' | ⟨x, hx, hkey, hdoes⟩
    · refine .inl ⟨hexp', fun job hc hkey => hsole job ?_ hkey⟩
      exact Step.carries hstep hexp (fun _ => Prerequisite.noConfusion) hc hkey
    · rw [hsole x.2 (.inl ⟨x, hx, rfl⟩) hkey] at hdoes
      exact .inr (hdoes.agrees h.valid.wellFormed h.logged hexp he h.informed)
  · obtain ⟨more, hmore⟩ := hgrows.diagnostics
    refine .inr (.inl ?_)
    rw [← hmore]
    exact List.append_ne_nil_of_left_ne_nil hreport more
  · exact .inr (.inr ⟨hagrees.later hgrows.earlier h.valid.wellFormed.acyclic
      hvalid.wellFormed.acyclic he hknown, hknown.later hgrows.earlier⟩)

theorem lasting_derives (he : e.isPlain) : Lasting (Derives n e f) (·.Informs e) where
  step _ _ hstep h hin := h.step he hstep hin
  later _ _ hst h := h.later hst

end Moment

namespace Assembly

variable {s t : Assembly} {n : Name} {e : Expr} {f : Frame}

/-- When a label is entered, its value is to come from the job that is entered with it. -/
theorem Enters.derives (h : s.Enters n ⟨.value n e, f⟩ t) (he : e.isPlain) (hs : s.Ready)
    (hf : s.finished = false) :
    Moment.Derives n e f ⟨t, [], .reading⟩ := by
  obtain ⟨sym, u, jobs, hu, rfl, hnone, rfl, hscoped, hother, howed⟩ := h
  obtain ⟨symbols, hsym, hprogress, hrun⟩ := exists_enter hu
    (fun v hv => by rw [hnone] at hv; cases hv) hscoped (howed ▸ List.Sublist.refl _)
    fun key hkey => .inl (howed ▸ hkey)
  have hkey : Prerequisite.symbol sym.name ∈ sym.owed := by
    rw [← howed]
    exact List.mem_filterMap.mpr ⟨_, List.mem_append_right _ (List.mem_singleton_self _), rfl⟩
  have hwake := alike_foldl_wake { s with symbols } (provided sym)
  have hfinished : ((provided sym).foldl wake { s with symbols }).finished = false :=
    hwake.finished.trans hf
  have hstart : Moment.Derives sym.name e f ⟨(provided sym).foldl wake { s with symbols },
      (jobs ++ [(⟨.value sym.name e, f⟩ : Job)]).map (none, ·), .reading⟩ := by
    refine ⟨hs.valid.progress hprogress, hprogress.grows.logged (hs.logged hf), fun hfin => ?_,
      .inl ⟨?_, fun job hc hjob => ?_⟩⟩
    · rw [show _ = false from hfinished] at hfin
      cases hfin
    · exact (hwake.expects _).mpr ((expects_create hsym _).mpr (.inr hkey))
    · rcases hc with ⟨x, hx, rfl⟩ | ⟨id, p, hp, rfl⟩
      · obtain ⟨other, hmem, rfl⟩ := List.mem_map.mp hx
        rcases List.mem_append.mp hmem with hmem | hmem
        · exact absurd hjob (hother other hmem)
        · exact List.mem_singleton.mp hmem
      · -- Nothing that was pending before produces the value of a new label.
        rw [show _ = s.pendings from hwake.pendings] at hp
        exact absurd ((hs.valid.entries id p hp).expected _ hjob)
          (not_expects_owed (SymbolTable.create?_eq_some hsym).1 hkey)
  exact ((lasting_derives he).run_open hrun
    (fun _ _ hstep => ⟨.cascade hstep, hstep.steady.finished⟩) hstart hfinished).1

/-- A value that is to come from an expression agrees with it in the end, if there is no report. -/
theorem agrees_of_derives (h : Moment.Derives n e f ⟨s, [], .reading⟩) (he : e.isPlain)
    (hs : s.Ready) (hf : s.finished = false) (hin : s.placeCounters.drainAll.Informs e)
    (hclean : s.finish.diagnostics = []) : s.finish.Agrees n e f := by
  obtain ⟨u, -, hu, hknown, -, hclear, -⟩ := (lasting_derives he).exists_closing hs hf h hin
  have hclear : Step _ _ := .ending hclear
  rcases (hu.step he hclear fun _ => hknown.later hclear.grows.earlier).value with
    ⟨hexp, -⟩ | hreport | ⟨hagrees, -⟩
  · exact absurd hexp (@not_expects_finish s hs hf (.symbol n) trivial)
  · exact absurd hclean hreport
  · exact hagrees

end Assembly

/-! ## 3. Sessions -/

namespace Session

/-- An EQU symbol ends with the value that its expression has at the end, if nothing is reported and the length,
scale and integer attributes that the expression asks for are known when the end of the source is reached. -/
theorem agrees_of_finish (settings : Settings) (before after : List Statement) {st : Statement}
    {label : Name} {e : Expr} {length? type? : Option Expr} (hlabel : st.label? = some label)
    (hop : st.operation = .equ (some e) length? type?) (he : e.isPlain) :
    let s₀ := ((new settings).performAll (before.map .process)).assembly
    let s := ((new settings).performAll ((before ++ st :: after).map .process)).assembly
    s.placeCounters.drainAll.Informs e → s.finish.diagnostics = [] →
      s.finish.Agrees label e (s₀.frameFor st [some e, length?, type?]).1 := by
  intro s₀ s hin hclean
  obtain ⟨hready₀, hf₀⟩ := ready_statements settings before
  obtain ⟨hready, hf⟩ := ready_statements settings (before ++ st :: after)
  have hprocess : s₀.process st = s₀.defineEqu st label (some e) length? type? := by
    rw [process, hop]
    show s₀.processEqu st (some e) length? type? = _
    rw [processEqu, hlabel]
  have hrest : (s₀.process st).Leads s := leads_rest settings before after st
  obtain ⟨u, hlead, hequ, -, hcases⟩ := defineEqu_cases hready₀ hlabel hop
  have hlead := hlead.leads
  have hequ := hequ.leads
  rw [← hprocess] at hequ hcases
  rcases hcases e rfl with hreport | henter
  · -- The label was taken, and that has been reported.
    have hsome : (s₀.process st).diagnostics ≠ [] := by
      rw [hreport]
      exact diagnostics_addDiagnostic_ne_nil _ _
    obtain ⟨more, hmore⟩ := (hrest.steps.trans (follows_finish hready).run).grows.diagnostics
    refine absurd ?_ (List.append_ne_nil_of_left_ne_nil hsome more)
    exact hmore.trans hclean
  · have hderives := henter.derives he (hlead.ready hready₀) (hlead.finished.trans hf₀)
    obtain ⟨hderives, -⟩ := (lasting_derives he).run_open hrest.run
      (fun _ _ hstep => ⟨hstep.step, hstep.finished⟩) hderives
      ((hlead.trans hequ).finished.trans hf₀)
    exact agrees_of_derives hderives he hready hf hin hclean

/-- A reference to a symbol that is defined after it. -/
theorem agrees_of_finish_forward :
    (outcome {} forward).diagnostics = [] ∧
      (outcome {} forward).Agrees (.ofString "A")
        (.binary .div (.symbol (.ofString "B")) (.number 2)) { label? := some (.ofString "A") } := by
  have hclean : (outcome {} forward).diagnostics = [] :=
    (solved_of_closed rfl (by decide +kernel) (by decide +kernel) acyclic_forward closed_forward).1
  exact ⟨hclean, @agrees_of_finish {} [] [Equation.statement ⟨.ofString "B", .number 7, {}⟩]
    (Equation.statement ⟨.ofString "A", .binary .div (.symbol (.ofString "B")) (.number 2), {}⟩)
    _ _ none none rfl rfl rfl ⟨trivial, trivial⟩ hclean⟩

end Session

end Assembler
