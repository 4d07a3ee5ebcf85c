import Assembler.Proofs.Process
/-!
No wake-up is lost.

Work that is neither on the worklist nor put aside lacks everything that it has waited for since it was
tried (`Moment.Watchful`). That is so at every moment before the end of the source and after it
(`Moment.Reachable.watchful`).
-/

namespace Assembler

namespace Assembly

variable {s t : Assembly}

/-! ## 1. What is woken -/

theorem mem_worklist_wake (s : Assembly) (key : Prerequisite) (id : Nat) :
    id ∈ (s.wake key).worklist ↔ id ∈ s.worklist ∨ id ∈ s.pendings.waitersOf key := by
  have fold : ∀ ids list : List Nat,
      id ∈ ids.foldl (fun list id => if id ∈ list then list else list ++ [id]) list ↔
        id ∈ list ∨ id ∈ ids := by
    intro ids
    induction ids with
    | nil => simp
    | cons j rest ih =>
      intro list
      rw [List.foldl_cons, ih, List.mem_cons]
      by_cases hj : j ∈ list
      · rw [if_pos hj]
        constructor
        · rintro (h | h)
          · exact .inl h
          · exact .inr (.inr h)
        · rintro (h | rfl | h)
          · exact .inl h
          · exact .inl hj
          · exact .inr h
      · rw [if_neg hj, List.mem_append, List.mem_singleton, or_assoc]
  exact fold _ _

theorem mem_worklist_foldl_wake (s : Assembly) (keys : List Prerequisite) (id : Nat) :
    id ∈ (keys.foldl wake s).worklist ↔
      id ∈ s.worklist ∨ ∃ key ∈ keys, id ∈ s.pendings.waitersOf key := by
  induction keys generalizing s with
  | nil => simp
  | cons key rest ih =>
    rw [List.foldl_cons, ih, mem_worklist_wake, or_assoc]
    simp [wake]

theorem stalled_foldl_wake (s : Assembly) (keys : List Prerequisite) :
    (keys.foldl wake s).stalled = s.stalled := by
  induction keys generalizing s with
  | nil => rfl
  | cons key rest ih => exact ih (s.wake key)

/-- What holds of the symbol that a name may have holds of it still if it holds of the new symbol. -/
theorem forall_get?_create {sym : Symbol} {symbols : SymbolTable} (h : s.symbols.create? sym = some symbols)
    {n : Name} {P : Symbol → Prop} (hold : ∀ x, s.symbols.get? n = some x → P x)
    (hnew : n = sym.name → P sym) : ∀ x, symbols.get? n = some x → P x := by
  intro x hx
  rw [(SymbolTable.create?_eq_some h).2] at hx
  split at hx
  · cases hx
    exact hnew ‹_›
  · exact hold x hx

/-- A symbol lacks nothing but what it does not provide. -/
theorem lacks_create {sym : Symbol} {symbols : SymbolTable} (h : s.symbols.create? sym = some symbols)
    {key : Prerequisite} (hl : s.Lacks key) (hno : key ∉ provided sym) :
    { s with symbols }.Lacks key := by
  obtain ⟨-, hget⟩ := SymbolTable.create?_eq_some h
  -- What the symbol does not provide is still pending in it.
  cases key with
  | space k => exact hl
  | symbol n =>
    refine forall_get?_create h hl fun hn => ?_
    cases hv : sym.value? with
    | none => rfl
    | some v => exact absurd (by simp [provided, Symbol.isDefined, hv, hn]) hno
  | attr n kind =>
    cases kind with
    | length =>
      refine forall_get?_create h hl fun hn => Slot.isPending_iff.mp (Classical.byContradiction fun hp => hno ?_)
      simp [provided, hp, hn]
    | scale =>
      refine forall_get?_create h hl fun hn => Slot.isPending_iff.mp (Classical.byContradiction fun hp => hno ?_)
      simp [provided, hp, hn]
    | integer =>
      refine forall_get?_create h hl fun hn => Slot.isPending_iff.mp (Classical.byContradiction fun hp => hno ?_)
      simp [provided, hp, hn]
    | type =>
      show symbols.get? n = none
      rw [hget, if_neg]
      · exact hl
      · rintro rfl
        exact hno (by simp [provided])
    | opcode => exact hl
    | count | number | defined => exact hl

/-! ## 2. Stuck work -/

/-- Whether pending work was tried at some time, and lacks all that it waited for then. When it is done
at the end of the source, it may have been tried before the end. -/
structure Stuck (s : Assembly) (phase : Phase) (p : Pending Job) : Prop where
  tried : ∃ s₀ : Assembly, s₀.Earlier s ∧ (phase ≠ .closing → s₀.finished = s.finished) ∧
    s₀.WellFormed ∧ p.work.Scoped s₀.layout.spaces ∧ s₀.attempt p.work = .blocked p.waiting
  others : ∀ key, p.work.task.product? = some key → key ∉ p.waiting
  lacking : ∀ key ∈ p.waiting, s.Lacks key

theorem Stuck.later {phase phase' : Phase} {p : Pending Job} (h : s.Stuck phase p)
    (hst : s.Earlier t) (hf : phase' ≠ .closing → phase ≠ .closing ∧ t.finished = s.finished)
    (hl : ∀ key ∈ p.waiting, t.Lacks key) : t.Stuck phase' p where
  tried := by
    obtain ⟨s₀, hle, hf₀, hrest⟩ := h.tried
    exact ⟨s₀, hle.trans hst, fun hph => (hf₀ (hf hph).1).trans (hf hph).2.symm, hrest⟩
  others := h.others
  lacking := hl

/-- Work stays stuck as long as what it is computed from is the same. -/
theorem Stuck.of_eq {phase phase' : Phase} {p : Pending Job} (h : s.Stuck phase p)
    (hsymbols : t.symbols = s.symbols) (hmacros : t.macros = s.macros) (hlayout : t.layout = s.layout)
    (hvariables : t.variableValues = s.variableValues)
    (hf : phase' ≠ .closing → phase ≠ .closing ∧ t.finished = s.finished) : t.Stuck phase' p := by
  have hspaces : t.layout.spaces = s.layout.spaces := congrArg (·.spaces) hlayout
  exact h.later (.of_eq hsymbols hmacros hvariables hspaces) hf fun key hkey =>
    (h.lacking key hkey).congr hsymbols hmacros hspaces

/-- Stuck work would have to wait again. -/
theorem Stuck.isBlocked {phase : Phase} {p : Pending Job} (h : s.Stuck phase p)
    (hph : phase ≠ .closing) (hs : s.WellFormed) (hm : s.finished → s.misusesIn p.work = false) :
    (s.attempt p.work).IsBlocked := by
  obtain ⟨s₀, hle, hf, hs₀, hscope, htry⟩ := h.tried
  exact isBlocked_attempt hle hs₀ hs (hf hph).symm h.lacking hm hscope h.others htry

end Assembly

open Assembly

namespace Moment

variable {s t : Assembly} {hand : List (Option Nat × Job)} {phase : Phase}

/-! ## 3. What holds at every moment -/

/-- Whether all pending work will be tried or is stuck. -/
def Watchful (m : Moment) : Prop := ∀ id p, m.state.pendings.get? id = some p →
  id ∈ m.state.worklist ∨ id ∈ m.state.stalled ∨ m.state.Stuck m.phase p

/-- Nothing is forgotten as long as the lists are kept and stuck work stays stuck. -/
theorem Watchful.of_stuck {phase' : Phase} (h : Watchful ⟨s, hand, phase⟩)
    (hget : ∀ id p, t.pendings.get? id = some p → s.pendings.get? id = some p)
    (hw : t.worklist = s.worklist) (hs : t.stalled = s.stalled)
    (hstuck : ∀ p, s.Stuck phase p → t.Stuck phase' p) (hand' : List (Option Nat × Job)) :
    Watchful ⟨t, hand', phase'⟩ := by
  intro id p hp
  rcases h id p (hget id p hp) with hid | hid | hp
  · exact .inl (hw ▸ hid)
  · exact .inr (.inl (hs ▸ hid))
  · exact .inr (.inr (hstuck p hp))

/-- Whatever ceases to be lacking wakes the work that waits for it. -/
theorem Watchful.wake (h : Watchful ⟨s, hand, phase⟩) (hi : s.pendings.Indexed)
    (keys : List Prerequisite) (hst : s.Earlier t) (hf : t.finished = s.finished)
    (hp : t.pendings = s.pendings) (hl : ∀ key, s.Lacks key → key ∉ keys → t.Lacks key)
    (hw : ∀ id, id ∈ s.worklist ∨ (∃ key ∈ keys, id ∈ s.pendings.waitersOf key) →
      id ∈ t.worklist)
    (hs : t.stalled = s.stalled) (hand' : List (Option Nat × Job)) :
    Watchful ⟨t, hand', phase⟩ := by
  intro id p hget
  have hget : s.pendings.get? id = some p := hp ▸ hget
  rcases h id p hget with hid | hid | hstuck
  · exact .inl (hw id (.inl hid))
  · exact .inr (.inl (by rw [hs]; exact hid))
  · -- Stuck work is woken if what it waits for may have ceased to be lacking, and is stuck still if not.
    by_cases hwoken : ∃ key ∈ keys, key ∈ p.waiting
    · obtain ⟨key, hkey, hmem⟩ := hwoken
      exact .inl (hw id (.inr ⟨key, hkey, (hi.waiters key id).mpr ⟨p, hget, hmem⟩⟩))
    · refine .inr (.inr (hstuck.later hst (⟨·, hf⟩) fun key hkey => hl key (hstuck.lacking key hkey) ?_))
      exact fun hmem => hwoken ⟨key, hmem, hkey⟩

theorem Watchful.alike (h : Watchful ⟨s, hand, phase⟩) (hi : s.pendings.Indexed) (ha : s.Alike t)
    (hst : s.Earlier t) (hm : t.macros = s.macros) (hw : t.worklist = s.worklist)
    (hs : t.stalled = s.stalled) (hand' : List (Option Nat × Job)) :
    Watchful ⟨t, hand', phase⟩ := by
  refine h.wake hi [] hst ha.finished ha.pendings (fun key hl _ => ?_) (fun id hid => ?_) hs hand'
  · exact hl.congr ha.symbols hm (congrArg (·.spaces) ha.layout)
  · rcases hid with hid | ⟨key, hkey, -⟩
    · exact hw ▸ hid
    · cases hkey

theorem Watchful.report (h : Watchful ⟨s, hand, phase⟩) (hi : s.pendings.Indexed) (d : Diagnostic)
    (hand' : List (Option Nat × Job)) : Watchful ⟨s.addDiagnostic d, hand', phase⟩ := by
  refine h.alike hi (alike_addDiagnostic s d) (s.grows_addDiagnostic d).earlier
    (steady_addDiagnostic s d).macros ?_ ?_ hand'
  · unfold addDiagnostic
    split <;> rfl
  · unfold addDiagnostic
    split <;> rfl

theorem Watchful.explain (h : Watchful ⟨s, hand, phase⟩) (hi : s.pendings.Indexed)
    (waiting : List Prerequisite) (location : Location) (hand' : List (Option Nat × Job)) :
    Watchful ⟨(s.explain waiting location).2, hand', phase⟩ := by
  have hkeep := s.worklist_explain waiting location
  exact h.alike hi (alike_explain s waiting location) (s.grows_explain waiting location).earlier
    hkeep.2.2 hkeep.1 hkeep.2.1 hand'

theorem Watchful.establish (h : Watchful ⟨s, hand, phase⟩) (hi : s.pendings.Indexed)
    (d : Definition) (hand' : List (Option Nat × Job)) :
    Watchful ⟨s.establish d, hand', phase⟩ := by
  unfold Assembly.establish
  split
  · exact h
  · rename_i t ht
    have hk := keeps_define? ht
    have hle := earlier_define? ht
    have hl : ∀ key, s.Lacks key → key ∉ d.product?.toList → t.Lacks key := fun key hkey hno =>
      lacks_define? ht hkey fun heq => hno (Option.mem_toList.mpr heq)
    split
    · -- Only the product of the definition ceases to be lacking, and that is woken.
      rename_i key hkey
      refine h.wake hi d.product?.toList (hle.trans (t.grows_wake key).earlier) hk.finished
        hk.pendings ?_ (fun id hid => ?_) hk.stalled hand'
      · intro key' hl' hno
        have hlack := hl key' hl' hno
        exact hlack.congr rfl rfl rfl
      · rw [mem_worklist_wake, hk.worklist, hk.pendings]
        refine hid.imp_right fun ⟨key', hmem, hid⟩ => ?_
        rw [hkey] at hmem
        rw [← List.mem_singleton.mp hmem]
        exact hid
    · rename_i hnone
      rw [hnone] at hl
      refine h.wake hi [] hle hk.finished hk.pendings hl (fun id hid => ?_) hk.stalled hand'
      rw [hk.worklist]
      exact hid.resolve_right fun ⟨_, hmem, _⟩ => nomatch hmem

/-- Work that is put aside after a try is stuck. -/
theorem Watchful.postpone {id? : Option Nat} {job : Job}
    (h : Watchful ⟨s, (id?, job) :: hand, phase⟩) (hv : Valid ⟨s, (id?, job) :: hand, phase⟩)
    {waiting : List Prerequisite} (hwait : s.attempt job = .blocked waiting)
    (hno : s.isCyclic job waiting = false) :
    Watchful ⟨s.postpone id? job waiting, hand, phase⟩ := by
  have hwf := hv.wellFormed
  have hheld := hv.held _ List.mem_cons_self
  have same : ∀ (u : PendingTable Job) (p : Pending Job), s.Stuck phase p →
      { s with pendings := u }.Stuck phase p := fun u p hp => hp.of_eq rfl rfl rfl rfl (⟨·, rfl⟩)
  -- It has just been tried, so it lacks what it waits for, and not its own product.
  have hstuck : s.Stuck phase ⟨job, waiting⟩ := by
    refine ⟨⟨s, .refl s, fun _ => rfl, hwf, hheld.inScope, hwait⟩, fun key hkey hmem => ?_,
      lacks_of_attempt hwf.named hwf.acyclic hwait⟩
    have hkey : job.task.product? = some key := hkey
    rw [isCyclic, hkey] at hno
    have hcycle : s.pendings.createsCycle key waiting = true :=
      PendingTable.createsCycle_iff.mpr ⟨key, hmem, .refl key⟩
    simp [hcycle] at hno
  have main : ∀ (id : Nat) (u : PendingTable Job),
      (∀ j, u.get? j = if j = id then some ⟨job, waiting⟩ else s.pendings.get? j) →
      Watchful ⟨{ s with pendings := u }, hand, phase⟩ := by
    intro id u hget j p hp
    have hp : u.get? j = some p := hp
    rw [hget] at hp
    split at hp
    · cases hp
      exact .inr (.inr (same u _ hstuck))
    · exact (h j p hp).imp_right (.imp_right (same u p))
  cases id? with
  | some id => exact main id _ (PendingTable.get?_reinsert _ _ _)
  | none => exact main _ _ (PendingTable.get?_reinsert _ _ _)

/-- A report and what is established then lose no wake-up. -/
theorem Watchful.establish_report (h : Watchful ⟨s, hand, phase⟩) (hi : s.pendings.Indexed) (fault : Fault)
    (location : Location) (d : Definition) (hand' : List (Option Nat × Job)) :
    Watchful ⟨(s.report fault location).establish d, hand', phase⟩ := by
  refine (h.report hi _ hand').establish ?_ d hand'
  show (s.report fault location).pendings.Indexed
  rw [(pendings_report s fault location).1]
  exact hi

theorem Watchful.settle {id? : Option Nat} {job : Job}
    (h : Watchful ⟨s, (id?, job) :: hand, phase⟩) (hv : Valid ⟨s, (id?, job) :: hand, phase⟩) :
    Watchful ⟨s.settle id? job, hand, phase⟩ := by
  have hi := hv.indexed
  unfold Assembly.settle
  split
  · exact h.establish hi _ hand
  · exact h.establish_report hi _ _ _ hand
  · rename_i waiting hwait
    split
    · exact h.establish_report hi _ _ _ hand
    · rename_i hno
      exact h.postpone hv hwait (by simpa using hno)

/-- Taking up work that is to be tried leaves the rest alone. -/
theorem Watchful.pick (h : Watchful ⟨s, hand, phase⟩) {id : Nat} {rest : List Nat}
    {u : PendingTable Job} (hw : s.worklist = id :: rest)
    (hget : ∀ j p, u.get? j = some p → j ≠ id ∧ s.pendings.get? j = some p)
    (hand' : List (Option Nat × Job)) :
    Watchful ⟨{ s with worklist := rest, pendings := u }, hand', phase⟩ := by
  intro j p hp
  obtain ⟨hne, hold⟩ := hget j p hp
  rcases h j p hold with hj | hj | hstuck
  · rw [hw] at hj
    exact .inl ((List.mem_cons.mp hj).resolve_left hne)
  · exact .inr (.inl hj)
  · exact .inr (.inr (hstuck.of_eq rfl rfl rfl rfl (⟨·, rfl⟩)))

theorem mem_unseenPending {ids : List Nat} {id : Nat} {p : Pending Job}
    (hp : s.pendings.get? id = some p) (hid : id ∈ ids) :
    ∀ seen : Std.TreeSet Nat, id ∈ seen ∨ id ∈ s.unseenPending seen ids := by
  induction ids with
  | nil => cases hid
  | cons j rest ih =>
    intro seen
    unfold unseenPending
    split
    · rename_i hskip
      rcases List.mem_cons.mp hid with rfl | hid
      · rw [hp] at hskip
        exact .inl (hskip.resolve_right (by simp))
      · exact ih hid seen
    · rcases List.mem_cons.mp hid with rfl | hid
      · exact .inr List.mem_cons_self
      · rcases ih hid (seen.insert j) with hseen | hmem
        · rw [Std.TreeSet.mem_insert, Std.LawfulEqOrd.compare_eq_iff_eq] at hseen
          rcases hseen with rfl | hseen
          · exact .inr List.mem_cons_self
          · exact .inl hseen
        · exact .inr (List.mem_cons_of_mem _ hmem)

/-- Work put aside that is still pending is tried again. -/
theorem mem_readyAgain {id : Nat} {p : Pending Job} (hp : s.pendings.get? id = some p)
    (hid : id ∈ s.worklist ∨ id ∈ s.stalled) : id ∈ s.readyAgain := by
  rcases hid with hid | hid
  · exact List.mem_append_left _ hid
  · rcases mem_unseenPending hp hid (.ofList s.worklist) with hseen | hmem
    · refine List.mem_append_left _ ?_
      simpa [Std.TreeSet.mem_ofList] using hseen
    · exact List.mem_append_right _ hmem

theorem Watchful.cascade {m m' : Moment} (h : m.Watchful) (hv : m.Valid) (hstep : Cascade m m') :
    m'.Watchful := by
  cases hstep with
  | settle => exact h.settle hv
  | @pick s hand phase id rest p pendings hw ht hnew =>
    refine h.pick hw (fun j q hq => ?_) _
    rw [PendingTable.get?_take ht] at hq
    split at hq
    · cases hq
    · exact ⟨‹_›, hq⟩
  | @skip s hand phase id rest hw hnone =>
    refine h.pick hw (fun j q hq => ⟨?_, hq⟩) hand
    rintro rfl
    rw [hnone] at hq
    cases hq
  | stall =>
    intro j p hp
    rcases h j p hp with hj | hj | hstuck
    · exact .inr (.inl (List.mem_append_right _ hj))
    · exact .inr (.inl (List.mem_append_left _ hj))
    · exact .inr (.inr (hstuck.of_eq rfl rfl rfl rfl (⟨·, rfl⟩)))
  | resume =>
    -- What has been put aside goes to the worklist, as it is still pending.
    intro j p hp
    rcases h j p hp with hj | hj | hstuck
    · exact .inl (mem_readyAgain hp (.inl hj))
    · exact .inl (mem_readyAgain hp (.inr hj))
    · exact .inr (.inr (hstuck.of_eq rfl rfl rfl rfl (⟨·, rfl⟩)))

theorem Watchful.progress {m m' : Moment} (h : m.Watchful) (hv : m.Valid)
    (hstep : Progress m m') : m'.Watchful := by
  have hi := hv.indexed
  have hle := hstep.grows.earlier
  cases hstep with
  | report d => exact h.report hi d _
  | @arrange s hand layout job? ha =>
    -- A change of the layout gives no space its length.
    refine h.wake hi [] hle rfl rfl (fun key hl _ => ?_) (fun id hid => ?_) rfl _
    · cases key with
      | symbol n => exact hl
      | attr n kind => cases kind <;> exact hl
      | space k =>
        show ¬ layout.spaces.isResolved k
        rw [ha.grows.isResolved]
        exact hl
    · exact hid.resolve_right fun ⟨_, hmem, _⟩ => nomatch hmem
  | @enter s hand sym symbols jobs hsym =>
    have hwake := alike_foldl_wake { s with symbols } (provided sym)
    refine h.wake hi (provided sym) hle hwake.finished hwake.pendings (fun key hl hno => ?_)
      (fun id hid => (mem_worklist_foldl_wake _ _ _).mpr hid) ?_ _
    · have hmacros := steady_foldl_wake { s with symbols } (provided sym)
      exact (lacks_create hsym hl hno).congr hwake.symbols hmacros.macros
        (congrArg (·.spaces) hwake.layout)
    · exact stalled_foldl_wake { s with symbols } (provided sym)
  | check => exact h
  | @defineMacro s hand n origin =>
    refine h.wake hi [.attr n .opcode] hle rfl rfl (fun key hl hno => ?_) (fun id hid => ?_) rfl _
    · -- A macro provides nothing but its operation code attribute.
      cases key with
      | symbol m => exact hl
      | attr m kind =>
        cases kind with
        | opcode =>
          refine ⟨?_, hl.2⟩
          show (s.macros.insert n origin)[m]? = none
          rw [Std.ExtTreeMap.getElem?_insert, if_neg]
          · exact hl.1
          · intro heq
            exact hno (by rw [Std.LawfulEqOrd.eq_of_compare heq]; exact List.mem_singleton_self _)
        | length | type | scale | integer | count | number | defined => exact hl
      | space k => exact hl
    · rw [mem_worklist_wake]
      refine hid.imp_right fun ⟨key, hmem, hid⟩ => ?_
      rw [← List.mem_singleton.mp hmem]
      exact hid
  | @defineVariable s hand n v =>
    exact h.alike (t := s.defineVariable n v) hi ⟨rfl, rfl, rfl, rfl⟩ hle rfl rfl rfl hand

theorem Watchful.conclude {explained : Bool} {job : Job} (h : Watchful ⟨s, hand, phase⟩)
    (hi : s.pendings.Indexed) (hand' : List (Option Nat × Job)) :
    Watchful ⟨s.conclude explained job, hand', phase⟩ := by
  unfold Assembly.conclude
  dsimp only
  split
  · exact h.establish hi _ hand'
  · exact h.establish_report hi _ _ _ hand'
  · rename_i waiting hwait
    split
    · exact h.establish hi _ hand'
    · have hexplain := h.explain hi waiting job.frame.location hand'
      have hindexed : (s.explain waiting job.frame.location).2.pendings.Indexed := by
        rw [s.pendings_explain waiting job.frame.location]
        exact hi
      split
      · exact hexplain.establish hindexed _ hand'
      · exact hexplain.establish_report hindexed _ _ _ hand'

theorem Watchful.ending {m m' : Moment} (h : m.Watchful) (hv : m.Valid) (hstep : Ending m m') :
    m'.Watchful := by
  have hi := hv.indexed
  cases hstep with
  | place =>
    exact h.of_stuck (fun _ _ => id) rfl rfl (fun p hp => hp.of_eq rfl rfl rfl rfl fun _ => ⟨nofun, rfl⟩) _
  | @close s =>
    exact h.of_stuck (t := { s with finished := true }) (fun _ _ => id) rfl rfl
      (fun p hp => hp.of_eq rfl rfl rfl rfl fun hph => absurd rfl hph) _
  | explain => exact h.explain hi _ _ _
  | @choose s id p pendings ht =>
    refine h.of_stuck (t := { s with pendings }) (fun j q hq => ?_) rfl rfl
      (fun p hp => hp.of_eq rfl rfl rfl rfl fun hph => ⟨hph, rfl⟩) _
    have hq : pendings.get? j = some q := hq
    rw [PendingTable.get?_take ht] at hq
    split at hq
    · cases hq
    · exact hq
  | conclude => exact h.conclude hi _
  | @clear s =>
    intro id p hp
    rw [show ({ s with pendings := s.pendings.clear } : Assembly).pendings.get? id = none from
      PendingTable.get?_clear s.pendings id] at hp
    cases hp

/-- No wake-up is lost. -/
theorem Reachable.watchful {settings : Settings} {m : Moment} (h : m.Reachable settings) :
    m.Watchful := by
  have hboth : m.Valid ∧ m.Watchful := by
    refine Run.keeps (P := fun m => m.Valid ∧ m.Watchful) (fun a b hstep hab => ?_) h
      ⟨valid_start settings, fun id p hp => ?_⟩
    · refine ⟨hab.1.step hstep, ?_⟩
      cases hstep with
      | cascade hstep => exact hab.2.cascade hab.1 hstep
      | progress hstep => exact hab.2.progress hab.1 hstep
      | ending hstep => exact hab.2.ending hab.1 hstep
    · rw [show (start settings).state.pendings.get? id = none from
        PendingTable.get?_clear {} id] at hp
      cases hp
  exact hboth.2

end Moment

end Assembler
