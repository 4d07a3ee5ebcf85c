import Assembler.Proofs.Result
/-!
Producers of attributes.

An attribute that is not known yet is to come from exactly one piece of pending work. There is one exception: EQU
without a value enters its label with a length attribute that waits for the length operand, and nothing
computes that attribute (`Session.produced_of_pending`). It stays unknown for good (`Moment.Lapses.run`).

A symbol never loses the job of its length attribute but by getting the attribute (`Moment.Valid.lapses_run`).
So it is enough to look at the acts that enter symbols.
-/

namespace Assembler

open Assembly Moment

/-! ## 1. Names that are taken -/

section Absence

variable {n : Name}

theorem Assembly.get?_establish_eq_none {s : Assembly} {d : Definition}
    (h : s.symbols.get? n = none) : (s.establish d).symbols.get? n = none := by
  have defined : ∀ t, s.define? d = some t → t.symbols.get? n = none := by
    intro t ht
    rcases define?_eq_some ht with ⟨m, sym, sym', symbols, hsym, -, hget, rfl⟩ | ⟨_, _, _, -, -, rfl⟩
    · show symbols.get? n = none
      rw [hget, if_neg]
      · exact h
      · rintro rfl
        rw [h] at hsym
        cases hsym
    · exact h
  unfold establish
  split
  · exact h
  · rename_i t ht
    split <;> exact defined t ht

theorem Assembly.Does.get?_eq_none {s u : Assembly} {job : Job} (hdoes : s.Does job u)
    (h : s.symbols.get? n = none) : u.symbols.get? n = none := by
  obtain ⟨t, d, hst, -, -, rfl⟩ := hdoes.exists_establish
  exact get?_establish_eq_none (hst.symbols ▸ h)

variable {m m' : Moment}

/-- A cascade fills in symbols and enters none. -/
theorem Cascade.get?_eq_none (hstep : Cascade m m') (h : m.state.symbols.get? n = none) :
    m'.state.symbols.get? n = none := by
  cases hstep with
  | @settle s hand id? job phase =>
    rcases settle_outcome s id? job with hdoes | ⟨waiting, -, -, heq⟩
    · exact hdoes.get?_eq_none h
    · show (s.settle id? job).symbols.get? n = none
      rw [heq]
      unfold postpone
      split <;> exact h
  | pick | skip | stall | resume => exact h

theorem Completion.get?_eq_none (hstep : Completion m m') (h : m.state.symbols.get? n = none) :
    m'.state.symbols.get? n = none := by
  rcases hstep with hstep | hstep
  · exact hstep.get?_eq_none h
  · cases hstep with
    | @explain s id p =>
      exact (congrArg (·.get? n) (alike_explain s p.waiting p.work.frame.location).symbols).trans h
    | @conclude s id? job explained _ _ _ hexplained =>
      exact (conclude_outcome hexplained job).get?_eq_none h
    | place | close | choose | clear => exact h

theorem get?_eq_none_of_run {R : Moment → Moment → Prop}
    (hR : ∀ a b, R a b → a.state.symbols.get? n = none → b.state.symbols.get? n = none)
    (hrun : Run R m m') (h : m.state.symbols.get? n = none) : m'.state.symbols.get? n = none :=
  hrun.keeps (P := fun x => x.state.symbols.get? n = none) hR h

theorem Assembly.get?_resolveAll_eq_none {s : Assembly} (jobs : List Job)
    (h : s.symbols.get? n = none) : (s.resolveAll jobs).symbols.get? n = none :=
  get?_eq_none_of_run (fun _ _ => Cascade.get?_eq_none) (@run_resolveAll .reading s jobs) h

namespace Assembly

variable {s t : Assembly} {st : Statement}

/-- Whether the label of a statement is entered under a given name, with its jobs. -/
def Adds (s : Assembly) (st : Statement) (n : Name) (t : Assembly) : Prop :=
  ∃ sym jobs u, s.createSymbol? sym = some u ∧ st.Supplies sym jobs s.layout.spaces ∧
    t = u.resolveAll jobs ∧ sym.name = n

/-- A statement takes no name but that of its label. -/
theorem Act.get?_eq_none (hact : Act st s t) (h : s.symbols.get? n = none) (hn : ¬ s.Adds st n t) :
    t.symbols.get? n = none := by
  have layout : ∀ (layout : Layout) (jobs : List Job),
      ({ s with layout }.resolveAll jobs).symbols.get? n = none :=
    fun _ jobs => get?_resolveAll_eq_none jobs h
  cases hact with
  | still hstill =>
    cases hstill with
    | report => exact (congrArg (·.get? n) (alike_report s _ _).symbols).trans h
    | ensure => exact h
    | @enter u sym jobs hu hsupplies =>
      obtain ⟨symbols, hsym, hueq⟩ := Option.map_eq_some_iff.mp hu
      refine get?_resolveAll_eq_none jobs ?_
      rw [← hueq]
      have hwake := alike_foldl_wake { s with symbols } (provided sym)
      refine get?_eq_none_of_run (fun _ _ => Cascade.get?_eq_none)
        (@run_drain [] .reading _ forall_mem_nil) ?_
      show ((provided sym).foldl wake { s with symbols }).symbols.get? n = none
      rw [hwake.symbols]
      show symbols.get? n = none
      rw [(SymbolTable.create?_eq_some hsym).2, if_neg]
      · exact h
      · rintro rfl
        exact hn ⟨sym, jobs, u, hu, hsupplies, rfl, rfl⟩
    | @check rule f => exact get?_resolveAll_eq_none [⟨.check rule, f⟩] h
  | @align type f =>
    unfold Assembly.align
    split
    · exact h
    · exact layout _ [⟨_, f⟩]
  | @store op label? duplication length f =>
    unfold Assembly.reserveStorage
    split
    · exact h
    · exact layout _ [⟨_, f⟩]
  | @jump rule f => exact layout _ [⟨_, f⟩]
  | createSection | resumeSection | resumeCounter | createCounter | reserve | moveTo => exact h

end Assembly

end Absence

/-! ## 2. Length attributes that nothing computes -/

/-- Whether a statement is an EQU without a value that has the given label. -/
def Statement.OmitsValue (st : Statement) (n : Name) : Prop :=
  st.label? = some n ∧ ∃ length? type?, st.operation = .equ none length? type?

namespace Moment

variable {m m' : Moment} {n : Name}

/-- Whether the length attribute of a symbol is not known yet, and no job is there for it. -/
def Lapses (m : Moment) (n : Name) : Prop :=
  m.state.Expects (.attr n .length) ∧ ¬ m.HasJob (.attr n .length)

theorem attr_ne_space {kind : AttributeKind} (space : SpaceId) :
    Prerequisite.attr n kind ≠ .space space := Prerequisite.noConfusion

/-- A symbol keeps the job of its length attribute until it has the attribute. -/
theorem Valid.lapses_step (hv : m.Valid) (h : Step m m') (hl : m'.Lapses n) :
    m.Lapses n ∨ m.state.symbols.get? n = none := by
  cases hsym : m.state.symbols.get? n with
  | none => exact .inr rfl
  | some sym =>
    refine .inl ⟨?_, fun hjob => ?_⟩
    · obtain ⟨later, hlater, hle⟩ := h.grows.earlier.symbols n sym hsym
      obtain ⟨other, hother, hpending⟩ := hl.1
      rw [hlater] at hother
      cases hother
      exact ⟨sym, hsym, hle.length.elim id fun heq => heq.symm.trans hpending⟩
    · obtain ⟨job, hc, hkey⟩ := hjob.exists_carries hv
      rcases hv.carries_step h hc with hc' | hfinishes | ⟨hnone, -⟩
      · exact hl.2 (hc'.hasJob (hv.step h) hkey)
      · exact hfinishes.does.not_expects hkey attr_ne_space hl.1
      · rw [hnone] at hkey
        cases hkey

theorem Valid.lapses_run (hv : m.Valid) (h : Run Step m m') (hl : m'.Lapses n) :
    m.Lapses n ∨ m.state.symbols.get? n = none := by
  induction h with
  | refl => exact .inl hl
  | @tail b c hrun hstep ih =>
    rcases (hv.run hrun).lapses_step hstep hl with hl | hnone
    · exact ih hl
    · -- A name that is free has been so before.
      refine .inr (Option.eq_none_iff_forall_ne_some.mpr fun sym hsym => ?_)
      obtain ⟨later, hlater, -⟩ := hrun.grows.earlier.symbols n sym hsym
      rw [hnone] at hlater
      cases hlater

/-- What nothing computes stays unknown: no job comes up for an attribute of a symbol that is there. -/
theorem Lapses.step (hl : m.Lapses n) (hv : m.Valid) (h : Step m m') : m'.Lapses n := by
  refine ⟨?_, fun hjob => ?_⟩
  · rcases Step.does h hl.1 attr_ne_space with hexp | ⟨x, hx, hkey, -⟩
    · exact hexp
    · exact absurd (.inr ⟨x, hx, hkey⟩) hl.2
  · obtain ⟨job, hc, hkey⟩ := hjob.exists_carries (hv.step h)
    exact hl.2 ((Step.carries h hl.1 attr_ne_space hc hkey).hasJob hv hkey)

theorem Lapses.run (hl : m.Lapses n) (hv : m.Valid) (h : Run Step m m') : m'.Lapses n :=
  (h.keeps (P := fun x => x.Valid ∧ x.Lapses n)
    (fun _ _ hstep hx => ⟨hx.1.step hstep, hx.2.step hx.1 hstep⟩) ⟨hv, hl⟩).2

/-- Right after a label has been entered its length attribute has a job, except for EQU without a value. -/
theorem lapses_enter {s : Assembly} {st : Statement} {sym : Symbol} {symbols : SymbolTable}
    {jobs : List Job} (hsym : s.symbols.create? sym = some symbols)
    (hsupplies : st.Supplies sym jobs s.layout.spaces)
    (hl : Lapses ⟨(provided sym).foldl wake { s with symbols }, jobs.map (none, ·), .reading⟩ sym.name) :
    st.OmitsValue sym.name := by
  have hwake := alike_foldl_wake { s with symbols } (provided sym)
  rcases (expects_create hsym _).mp ((hwake.expects _).mp hl.1) with ⟨other, hother, -⟩ | howed
  · rw [(SymbolTable.create?_eq_some hsym).1] at hother
    cases hother
  · rcases hsupplies.owed _ howed with hjob | ⟨-, hop⟩
    · obtain ⟨job, hjob, hkey⟩ := List.mem_filterMap.mp hjob
      exact absurd (.inr ⟨_, List.mem_map_of_mem hjob, hkey⟩) hl.2
    · exact ⟨hsupplies.label, hop⟩

end Moment

namespace Assembly

variable {s t : Assembly} {st : Statement} {n : Name}

/-- Between commands no job is at hand. -/
abbrev Lapses (s : Assembly) (n : Name) : Prop := Moment.Lapses ⟨s, [], .reading⟩ n

theorem Lapses.get?_ne_none (hl : s.Lapses n) : s.symbols.get? n ≠ none := by
  obtain ⟨sym, hsym, -⟩ := hl.1
  rw [hsym]
  exact Option.some_ne_none sym

/-- Only EQU without a value leaves a length attribute that nothing computes. -/
theorem Act.lapses (hact : Act st s t) (hs : s.Ready) (hl : t.Lapses n) :
    s.Lapses n ∨ st.OmitsValue n := by
  by_cases hadds : s.Adds st n t
  · obtain ⟨sym, jobs, u, hu, hsupplies, rfl, rfl⟩ := hadds
    obtain ⟨symbols, hsym, henter, hrun⟩ := exists_enter hu hsupplies.value hsupplies.inScope
      hsupplies.products fun key hkey => (hsupplies.owed key hkey).imp_right And.left
    have hrun := hrun.imp fun _ _ => Step.cascade
    rcases (hs.valid.step (.progress henter)).lapses_run hrun hl with hl | hnone
    · exact .inr (lapses_enter hsym hsupplies hl)
    · have hwake := alike_foldl_wake { s with symbols } (provided sym)
      rw [hwake.symbols, (SymbolTable.create?_eq_some hsym).2, if_pos rfl] at hnone
      cases hnone
  · rcases hs.valid.lapses_run hact.leads.steps hl with hl' | hnone
    · exact .inl hl'
    · exact absurd (hact.get?_eq_none hnone hadds) hl.get?_ne_none

theorem Acts.lapses (hacts : Acts st s t) (hs : s.Ready) (hl : t.Lapses n) :
    s.Lapses n ∨ st.OmitsValue n := by
  induction hacts with
  | refl => exact .inl hl
  | tail hacts hact ih => exact (hact.lapses (Acts.ready hacts hs) hl).elim ih .inr

end Assembly

/-! ## 3. Sessions -/

namespace Session

variable {s : Session} {n : Name}

/-- Whether a command carries out an EQU without a value that has the given label. -/
def Command.OmitsValue (n : Name) : Command → Prop
  | .process st => st.OmitsValue n
  | _ => False

/-- A command other than a statement takes no name. -/
theorem get?_perform_eq_none (hs : s.assembly.Ready) (c : Command) (hc : ∀ st, c ≠ .process st)
    (h : s.assembly.symbols.get? n = none) : (s.perform c).assembly.symbols.get? n = none := by
  cases c with
  | process st => exact absurd rfl (hc st)
  | defineMacro name origin =>
    refine get?_eq_none_of_run (fun _ _ => Cascade.get?_eq_none)
      (@run_drain [] .reading _ forall_mem_nil) ?_
    exact h
  | finish =>
    exact get?_eq_none_of_run (fun _ _ => Completion.get?_eq_none) (run_finish hs).1 h
  | defineVariable | requestAttribute | requestVariableAttribute => exact h

theorem lapses_perform (hs : s.assembly.Ready) (c : Command) (hl : (s.perform c).assembly.Lapses n) :
    s.assembly.Lapses n ∨ c.OmitsValue n := by
  by_cases hc : ∃ st, c = .process st
  · obtain ⟨st, rfl⟩ := hc
    exact (acts_process hs st).lapses hs hl
  · rcases hs.valid.lapses_run (follows_perform hs c).run hl with hl' | hnone
    · exact .inl hl'
    · exact absurd (get?_perform_eq_none hs c (fun st h => hc ⟨st, h⟩) hnone) hl.get?_ne_none

theorem lapses_performAll (hs : s.assembly.Ready) (commands : List Command)
    (hl : (s.performAll commands).assembly.Lapses n) :
    s.assembly.Lapses n ∨ ∃ c ∈ commands, c.OmitsValue n := by
  induction commands generalizing s with
  | nil => exact .inl hl
  | cons c rest ih =>
    rcases ih ((follows_perform hs c).ready hs) hl with hl | ⟨other, hmem, hother⟩
    · exact (lapses_perform hs c hl).imp_right fun hc => ⟨c, List.mem_cons_self, hc⟩
    · exact .inr ⟨other, List.mem_cons_of_mem _ hmem, hother⟩

/-- In the beginning nothing is expected. -/
theorem not_lapses_new (settings : Settings) : ¬ (Assembly.new settings).Lapses n := fun hl => by
  obtain ⟨sym, hsym, -⟩ := hl.1
  exact nomatch (SymbolTable.get?_empty n).symm.trans hsym

/-- An attribute that is not known yet is to come from exactly one piece of pending work, and at the end of
the source every attribute is known. Only the length attribute of the label of EQU without a value may have
no work, and so never become known. -/
theorem produced_of_pending (settings : Settings) (commands : List Command) :
    let s := ((new settings).performAll commands).assembly
    let produced := fun key => ∃! id, ∃ p, s.pendings.get? id = some p ∧ p.work.task.product? = some key
    (∀ n sym, s.symbols.get? n = some sym →
      (sym.attributes.scale = .pending → produced (.attr n .scale)) ∧
      (sym.attributes.integer = .pending → produced (.attr n .integer)) ∧
      (sym.attributes.length = .pending → produced (.attr n .length) ∨
        ∃ c ∈ commands, c.OmitsValue n)) ∧
    (s.finished = false → ∀ n sym, s.finish.symbols.get? n = some sym →
      sym.attributes.scale ≠ .pending ∧ sym.attributes.integer ≠ .pending ∧
      (sym.attributes.length = .pending → ∃ c ∈ commands, c.OmitsValue n)) := by
  intro s produced
  have hready : s.Ready :=
    (follows_performAll (s := new settings) (ready_new settings) commands).ready (ready_new settings)
  have homits : ∀ {n}, s.Lapses n → ∃ c ∈ commands, c.OmitsValue n := fun hl =>
    (lapses_performAll (ready_new settings) commands hl).resolve_left (not_lapses_new settings)
  refine ⟨fun n sym hsym => ⟨fun hp => ?_, fun hp => ?_, fun hp => ?_⟩,
    fun hf n sym hsym => ⟨fun hp => ?_, fun hp => ?_, fun hp => ?_⟩⟩
  · exact hready.valid.existsUnique_producer (.attr n .scale) ⟨sym, hsym, hp⟩ trivial
  · exact hready.valid.existsUnique_producer (.attr n .integer) ⟨sym, hsym, hp⟩ trivial
  · by_cases hjob : Moment.HasJob ⟨s, [], .reading⟩ (.attr n .length)
    · exact .inl (hready.valid.existsUnique_of_hasJob hjob)
    · exact .inr (homits ⟨⟨sym, hsym, hp⟩, hjob⟩)
  · exact @not_expects_finish s hready hf (.attr n .scale) trivial ⟨sym, hsym, hp⟩
  · exact @not_expects_finish s hready hf (.attr n .integer) trivial ⟨sym, hsym, hp⟩
  · -- No work is left, so there was none for it before.
    have hl : s.finish.Lapses n := ⟨⟨sym, hsym, hp⟩, fun hjob => by
      obtain ⟨job, hc, -⟩ := hjob.exists_carries hready.finish.valid
      exact not_carries_finish hready hf hc⟩
    rcases lapses_perform (s := (new settings).performAll commands) hready .finish hl with hl | hfinish
    · exact homits hl
    · exact hfinish.elim

end Session

end Assembler
