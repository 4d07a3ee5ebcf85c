import Assembler.Proofs.Acyclicity
import Mathlib.Computability.StateTransition
import Mathlib.Data.Prod.Lex
/-!
Searches of the pending work, turn by turn.

A search takes one prerequisite after another off a stack, and puts on it what the producer of that prerequisite waits
for, unless the prerequisite has been seen. The search for a cycle ends as soon as its target is the next to be looked
at, the search for the roots when nothing is left (`turn?`). In every turn less is unseen or less is left
(`turn?_lt`), so both come to an end in every table, also where work waits for itself. What has been seen is closed
under waiting but for what is left on the stack (`Search.Sound`), which makes both exact at their end
(`searches_exact`).
-/

namespace Assembler.PendingTable

open StateTransition (eval mem_eval)

variable {τ : Type} {t : PendingTable τ} {p q key : Prerequisite} {waiting : List Prerequisite}

/-! ## 1. Turns -/

/-- A search under way. -/
structure Search where
  seen : Std.TreeSet Prerequisite := ∅
  /-- What is still to be looked at, the next first. -/
  stack : List Prerequisite
  /-- What has been seen and has no producer. -/
  roots : List Prerequisite := []

/-- One turn of a search, unless nothing is left to be looked at or the next is the target. A waiting list is put on
the stack in the given order. -/
def turn? (t : PendingTable τ) (target? : Option Prerequisite)
    (order : List Prerequisite → List Prerequisite) (x : Search) : Option Search :=
  match x.stack with
  | [] => none
  | p :: rest =>
    if target? = some p then none
    else if p ∈ x.seen then some { x with stack := rest }
    else
      match t.waitingOf? p with
      | none => some ⟨x.seen.insert p, rest, x.roots ++ [p]⟩
      | some waiting => some ⟨x.seen.insert p, order waiting ++ rest, x.roots⟩

variable {target? : Option Prerequisite} {order : List Prerequisite → List Prerequisite}
  {x y : Search}

/-- The kinds of turns. -/
theorem turn?_cases (h : t.turn? target? order x = some y) :
    ∃ p rest, x.stack = p :: rest ∧ target? ≠ some p ∧
      ((p ∈ x.seen ∧ y = { x with stack := rest }) ∨
        (p ∉ x.seen ∧ t.waitingOf? p = none ∧ y = ⟨x.seen.insert p, rest, x.roots ++ [p]⟩) ∨
        (p ∉ x.seen ∧ ∃ waiting, t.waitingOf? p = some waiting ∧
          y = ⟨x.seen.insert p, order waiting ++ rest, x.roots⟩)) := by
  unfold turn? at h
  split at h
  · cases h
  · next p rest hstack =>
    refine ⟨p, rest, hstack, ?_⟩
    by_cases htarget : target? = some p
    · rw [if_pos htarget] at h
      cases h
    · rw [if_neg htarget] at h
      refine ⟨htarget, ?_⟩
      by_cases hseen : p ∈ x.seen
      · rw [if_pos hseen, Option.some.injEq] at h
        exact .inl ⟨hseen, h.symm⟩
      · rw [if_neg hseen] at h
        cases hw : t.waitingOf? p with
        | none =>
          rw [hw] at h
          exact .inr (.inl ⟨hseen, rfl, (Option.some.inj h).symm⟩)
        | some waiting =>
          rw [hw] at h
          exact .inr (.inr ⟨hseen, waiting, rfl, (Option.some.inj h).symm⟩)

theorem turn?_eq_none : t.turn? target? order x = none ↔
    x.stack = [] ∨ ∃ p rest, x.stack = p :: rest ∧ target? = some p := by
  unfold turn?
  cases x.stack with
  | nil => simp
  | cons p rest =>
    dsimp only
    split_ifs with htarget hseen
    · simp [htarget]
    · simp [htarget]
    · cases t.waitingOf? p <;> simp [htarget]

/-- A turn leaves fewer producers unseen, or as many with a shorter stack. -/
theorem turn?_lt (h : t.turn? target? order x = some y) :
    toLex (t.unseen y.seen, y.stack.length) < toLex (t.unseen x.seen, x.stack.length) := by
  rw [Prod.Lex.toLex_lt_toLex]
  obtain ⟨p, rest, hstack, -, hcase⟩ := turn?_cases h
  have hshort : rest.length < x.stack.length := by
    rw [hstack]
    exact Nat.lt_succ_self _
  rcases hcase with ⟨-, rfl⟩ | ⟨-, -, rfl⟩ | ⟨hseen, waiting, hw, rfl⟩
  · exact .inr ⟨rfl, hshort⟩
  · exact (Nat.lt_or_eq_of_le (t.unseen_insert_le x.seen p)).imp id fun heq => ⟨heq, hshort⟩
  · exact .inl (unseen_insert_lt (mem_producers_of_waitingOf? hw) hseen)

theorem exists_mem_eval (t : PendingTable τ) (target? : Option Prerequisite)
    (order : List Prerequisite → List Prerequisite) (x : Search) :
    ∃ y, y ∈ eval (t.turn? target? order) x := by
  -- A turn makes the measure smaller, so there is a search without a further turn.
  induction hm : toLex (t.unseen x.seen, x.stack.length) using WellFoundedLT.induction generalizing x with
  | ind m ih =>
    cases hturn : t.turn? target? order x with
    | none => exact ⟨x, mem_eval.mpr ⟨.refl, hturn⟩⟩
    | some y =>
      obtain ⟨z, hz⟩ := ih _ (hm ▸ turn?_lt hturn) y rfl
      obtain ⟨hrun, hend⟩ := mem_eval.mp hz
      exact ⟨z, mem_eval.mpr ⟨.head hturn hrun, hend⟩⟩

/-! ## 2. What holds at every turn -/

/-- Whether `q` is in the list or is reached from it along waiting lists. -/
def Behind (t : PendingTable τ) (waiting : List Prerequisite) (q : Prerequisite) : Prop :=
  ∃ p ∈ waiting, Relation.ReflTransGen t.Waits p q

theorem Behind.tail (h : t.Behind waiting p) (hw : t.Waits p q) : t.Behind waiting q := by
  obtain ⟨w, hmem, hpath⟩ := h
  exact ⟨w, hmem, hpath.tail hw⟩

/-- What a search has done so far. -/
structure Search.Sound (t : PendingTable τ) (target? : Option Prerequisite)
    (waiting : List Prerequisite) (x : Search) : Prop where
  stacked : ∀ p ∈ x.stack, t.Behind waiting p
  seen : ∀ p ∈ x.seen, t.Behind waiting p
  start : ∀ p ∈ waiting, p ∈ x.seen ∨ p ∈ x.stack
  /-- Nothing that has been seen waits for something that is neither seen nor left. -/
  closed : ∀ p ∈ x.seen, ∀ q, t.Waits p q → q ∈ x.seen ∨ q ∈ x.stack
  passed : ∀ p ∈ x.seen, target? ≠ some p
  roots : ∀ p, p ∈ x.roots ↔ p ∈ x.seen ∧ t.waitingOf? p = none
  distinct : x.roots.Nodup

namespace Search.Sound

theorem initial {stack : List Prerequisite} (h : ∀ p, p ∈ stack ↔ p ∈ waiting) :
    Sound t target? waiting { stack } where
  stacked p hp := ⟨p, (h p).mp hp, .refl⟩
  seen _ hp := absurd hp Std.TreeSet.not_mem_emptyc
  start p hp := .inr ((h p).mpr hp)
  closed _ hp := absurd hp Std.TreeSet.not_mem_emptyc
  passed _ hp := absurd hp Std.TreeSet.not_mem_emptyc
  roots _ := iff_of_false List.not_mem_nil fun hp => Std.TreeSet.not_mem_emptyc hp.1
  distinct := List.nodup_nil

/-- Looking at a prerequisite once more changes nothing. -/
theorem drop (hx : Sound t target? waiting x) {rest : List Prerequisite} (hstack : x.stack = p :: rest)
    (hseen : p ∈ x.seen) : Sound t target? waiting { x with stack := rest } := by
  have hleft : ∀ q, q ∈ x.seen ∨ q ∈ x.stack → q ∈ x.seen ∨ q ∈ rest := by
    rintro q (hq | hq)
    · exact .inl hq
    · rw [hstack] at hq
      rcases List.mem_cons.mp hq with rfl | hq
      · exact .inl hseen
      · exact .inr hq
  have hrest : ∀ q ∈ rest, q ∈ x.stack := fun q hq => hstack ▸ List.mem_cons_of_mem p hq
  exact
    { hx with
      stacked := fun q hq => hx.stacked q (hrest q hq)
      start := fun q hq => hleft q (hx.start q hq)
      closed := fun q hq r hw => hleft r (hx.closed q hq r hw) }

/-- Seeing a prerequisite for the first time puts all that its producer waits for on the stack. -/
theorem see (hx : Sound t target? waiting x) {rest pushed roots : List Prerequisite}
    (hstack : x.stack = p :: rest) (htarget : target? ≠ some p)
    (hpushed : ∀ q, q ∈ pushed ↔ t.Waits p q)
    (hroots : ∀ q, q ∈ roots ↔ q ∈ x.roots ∨ q = p ∧ t.waitingOf? p = none) (hdistinct : roots.Nodup) :
    Sound t target? waiting ⟨x.seen.insert p, pushed ++ rest, roots⟩ := by
  have hp : t.Behind waiting p := hx.stacked p (hstack ▸ List.mem_cons_self)
  have hleft : ∀ q, q ∈ x.seen ∨ q ∈ x.stack → q ∈ x.seen.insert p ∨ q ∈ pushed ++ rest := by
    rintro q (hq | hq)
    · exact .inl (mem_insert.mpr (.inr hq))
    · rw [hstack] at hq
      rcases List.mem_cons.mp hq with rfl | hq
      · exact .inl (mem_insert.mpr (.inl rfl))
      · exact .inr (List.mem_append_right pushed hq)
  constructor
  case stacked =>
    intro q hq
    rcases List.mem_append.mp hq with hq | hq
    · exact hp.tail ((hpushed q).mp hq)
    · exact hx.stacked q (hstack ▸ List.mem_cons_of_mem p hq)
  case seen =>
    intro q hq
    rcases mem_insert.mp hq with rfl | hq
    · exact hp
    · exact hx.seen q hq
  case start => exact fun q hq => hleft q (hx.start q hq)
  case closed =>
    intro q hq r hw
    rcases mem_insert.mp hq with rfl | hq
    · exact .inr (List.mem_append_left rest ((hpushed r).mpr hw))
    · exact hleft r (hx.closed q hq r hw)
  case passed =>
    intro q hq
    rcases mem_insert.mp hq with rfl | hq
    · exact htarget
    · exact hx.passed q hq
  case roots =>
    intro q
    rw [hroots, hx.roots, mem_insert]
    constructor
    · rintro (⟨hq, hnone⟩ | ⟨rfl, hnone⟩)
      · exact ⟨.inr hq, hnone⟩
      · exact ⟨.inl rfl, hnone⟩
    · rintro ⟨rfl | hq, hnone⟩
      · exact .inr ⟨rfl, hnone⟩
      · exact .inl ⟨hq, hnone⟩
  case distinct => exact hdistinct

theorem turn (hx : Sound t target? waiting x) (horder : ∀ l p, p ∈ order l ↔ p ∈ l)
    (h : t.turn? target? order x = some y) : Sound t target? waiting y := by
  obtain ⟨p, rest, hstack, htarget, hcase⟩ := turn?_cases h
  rcases hcase with ⟨hseen, rfl⟩ | ⟨hseen, hnone, rfl⟩ | ⟨hseen, list, hsome, rfl⟩
  · exact hx.drop hstack hseen
  · -- What has no producer waits for nothing, and it is a root from now on.
    have hpushed : ∀ q, q ∈ [] ↔ t.Waits p q := by
      intro q
      simp [Waits, hnone]
    have hnew : p ∉ x.roots := fun hp => hseen ((hx.roots p).mp hp).1
    refine hx.see hstack htarget hpushed (fun q => ?_) ?_
    · simp [hnone]
    · exact List.nodup_append.mpr ⟨hx.distinct, List.nodup_singleton p, fun a ha b hb => by
        rw [List.mem_singleton.mp hb]
        exact fun heq => hnew (heq ▸ ha)⟩
  · have hpushed : ∀ q, q ∈ order list ↔ t.Waits p q := by
      intro q
      simp [Waits, hsome, horder]
    exact hx.see hstack htarget hpushed (fun q => by simp [hsome]) hx.distinct

theorem run (hx : Sound t target? waiting x) (horder : ∀ l p, p ∈ order l ↔ p ∈ l)
    (h : StateTransition.Reaches (t.turn? target? order) x y) : Sound t target? waiting y := by
  induction h with
  | refl => exact hx
  | tail _ hstep ih => exact ih.turn horder hstep

/-- At the end everything behind the list has been seen. -/
theorem mem_seen (hx : Sound t target? waiting x) (hend : x.stack = []) :
    q ∈ x.seen ↔ t.Behind waiting q := by
  constructor
  · exact hx.seen q
  · rintro ⟨p, hp, hpath⟩
    -- With an empty stack what has been seen is closed, so a path cannot leave it.
    have hleft : ∀ r, r ∈ x.seen ∨ r ∈ x.stack → r ∈ x.seen := by
      rintro r (hr | hr)
      · exact hr
      · rw [hend] at hr
        cases hr
    induction hpath with
    | refl => exact hleft p (hx.start p hp)
    | tail _ hw ih => exact hleft _ (hx.closed _ ih _ hw)

end Search.Sound

/-! ## 3. The ends of both searches -/

theorem behind_iff : t.Behind waiting q ↔ ∃ p ∈ waiting, t.Reaches p q := by
  have hpath : ∀ p, Relation.ReflTransGen t.Waits p q ↔ t.Reaches p q := by
    intro p
    constructor
    · intro h
      induction h using Relation.ReflTransGen.head_induction_on with
      | refl => exact .refl q
      | head hw _ ih => exact .step hw ih
    · intro h
      induction h with
      | refl => exact .refl
      | step hw _ ih => exact .head hw ih
  simp only [Behind, hpath]

/-- The search for a cycle ends, and its target is the next to be looked at just if there is a cycle. -/
theorem createsCycle_mem_eval (t : PendingTable τ) (key : Prerequisite) (waiting : List Prerequisite) :
    ∃ x ∈ eval (t.turn? (some key) List.reverse) { stack := waiting.reverse },
      x.stack.head? = some key ↔ t.createsCycle key waiting := by
  obtain ⟨x, hx⟩ := t.exists_mem_eval (some key) List.reverse { stack := waiting.reverse }
  refine ⟨x, hx, ?_⟩
  obtain ⟨hrun, hend⟩ := mem_eval.mp hx
  have hsound : x.Sound t (some key) waiting :=
    (Search.Sound.initial fun _ => List.mem_reverse).run (fun _ _ => List.mem_reverse) hrun
  rw [createsCycle_iff, ← behind_iff]
  rcases turn?_eq_none.mp hend with hnil | ⟨p, rest, hstack, hkey⟩
  · -- The target would have been seen, but a search never passes it.
    rw [hnil]
    refine iff_of_false (fun h => nomatch h) fun hbehind => ?_
    exact hsound.passed key ((hsound.mem_seen hnil).mpr hbehind) rfl
  · cases hkey
    rw [hstack]
    exact iff_of_true rfl (hsound.stacked key (hstack ▸ List.mem_cons_self))

/-- The turns of the search for the roots visit what is visited in one go. -/
theorem visit_mem_eval (t : PendingTable τ) (seen : Std.TreeSet Prerequisite)
    (stack roots : List Prerequisite) :
    ∃ x ∈ eval (t.turn? none id) ⟨seen, stack, roots⟩,
      x.roots = roots ++ (t.visit seen stack).filter fun p => (t.waitingOf? p).isNone := by
  -- One turn leads to where the rest of the search starts.
  have first : ∀ {x y z : Search} {found : List Prerequisite}, t.turn? none id x = some y →
      z ∈ eval (t.turn? none id) y ∧ z.roots = found →
        ∃ z ∈ eval (t.turn? none id) x, z.roots = found := by
    intro x y z found hturn hz
    obtain ⟨hrun, hend⟩ := mem_eval.mp hz.1
    exact ⟨z, mem_eval.mpr ⟨.head hturn hrun, hend⟩, hz.2⟩
  fun_induction visit t seen stack generalizing roots with
  | case1 seen => exact ⟨_, mem_eval.mpr ⟨.refl, rfl⟩, by simp⟩
  | case2 seen p rest hseen ih =>
    obtain ⟨z, hz⟩ := ih roots
    exact first (by simp [turn?, hseen]) hz
  | case3 seen p rest hseen hnone ih =>
    obtain ⟨z, hz, hroots⟩ := ih (roots ++ [p])
    refine first (by simp [turn?, hseen, hnone]) ⟨hz, ?_⟩
    simp [hroots, hnone]
  | case4 seen p rest hseen waiting hsome ih =>
    obtain ⟨z, hz, hroots⟩ := ih roots
    refine first (by simp [turn?, hseen, hsome]) ⟨hz, ?_⟩
    simp [hroots, hsome]

/-- The search for the roots ends with what is behind the list and has no producer, each once. -/
theorem missingRoots_mem_eval (t : PendingTable τ) (waiting : List Prerequisite) :
    ∃ x ∈ eval (t.turn? none id) { stack := waiting },
      x.stack = [] ∧ x.roots = t.missingRoots waiting ∧ x.roots.Nodup ∧
        ∀ q, q ∈ x.roots ↔ t.Behind waiting q ∧ t.waitingOf? q = none := by
  obtain ⟨x, hx, hroots⟩ := t.visit_mem_eval ∅ waiting []
  obtain ⟨hrun, hend⟩ := mem_eval.mp hx
  have hsound : x.Sound t none waiting :=
    (Search.Sound.initial fun _ => Iff.rfl).run (fun _ _ => Iff.rfl) hrun
  have hnil : x.stack = [] := by
    rcases turn?_eq_none.mp hend with hnil | ⟨p, rest, -, hkey⟩
    · exact hnil
    · cases hkey
  refine ⟨x, hx, hnil, hroots, hsound.distinct, fun q => ?_⟩
  rw [hsound.roots, hsound.mem_seen hnil]

/-! ## 4. Registered work -/

variable [Produces τ]

theorem NamesProducers.behind_iff (h : t.NamesProducers) :
    t.Behind waiting q ↔ ∃ p ∈ waiting, Relation.ReflTransGen t.Edge p q := by
  have hedge : t.Waits = t.Edge := by
    ext p q
    exact h.waits_iff_edge
  rw [Behind, hedge]

/-- Both searches of a table are exact and come to an end, whatever is in the table: the work that produces a
prerequisite is what the index of producers leads to. If the index names exactly the registered work, as it does in a
session, it is any registered work with that product. -/
theorem searches_exact (t : PendingTable τ) (key : Prerequisite) (waiting : List Prerequisite) :
    (t.createsCycle key waiting ↔ t.Behind waiting key) ∧
      ((t.missingRoots waiting).Nodup ∧
        ∀ q, q ∈ t.missingRoots waiting ↔ t.Behind waiting q ∧ t.waitingOf? q = none) ∧
      (t.NamesProducers →
        (t.createsCycle key waiting ↔ ∃ p ∈ waiting, Relation.ReflTransGen t.Edge p key) ∧
        ∀ q, q ∈ t.missingRoots waiting ↔ (∃ p ∈ waiting, Relation.ReflTransGen t.Edge p q) ∧
          ∀ id w, t.get? id = some w → product? w.work ≠ some q) ∧
      (∃ x ∈ eval (t.turn? (some key) List.reverse) { stack := waiting.reverse },
        x.stack.head? = some key ↔ t.createsCycle key waiting) ∧
      (∃ x ∈ eval (t.turn? none id) { stack := waiting },
        x.stack = [] ∧ x.roots = t.missingRoots waiting) ∧
      ∀ target? order x y, t.turn? target? order x = some y →
        toLex (t.unseen y.seen, y.stack.length) < toLex (t.unseen x.seen, x.stack.length) := by
  have hcycle : t.createsCycle key waiting ↔ t.Behind waiting key := by
    rw [createsCycle_iff, behind_iff]
  obtain ⟨x, hx, hnil, hroots, hdistinct, hmem⟩ := t.missingRoots_mem_eval waiting
  rw [hroots] at hdistinct hmem
  refine ⟨hcycle, ⟨hdistinct, hmem⟩, fun hnames => ⟨?_, fun q => ?_⟩,
    t.createsCycle_mem_eval key waiting, ⟨x, hx, hnil, hroots⟩, fun _ _ _ _ => turn?_lt⟩
  · rw [hcycle, hnames.behind_iff]
  · rw [hmem, hnames.behind_iff, hnames.waitingOf?_eq_none]

namespace Mutual

def symbol (n : String) : Prerequisite := .symbol (.ofString n)

/-- Work for the value of a symbol. -/
def work (n : String) (waiting : List Prerequisite) : Pending Job :=
  ⟨⟨.value (.ofString n) .counter, {}⟩, waiting⟩

/-- A value that waits for one which waits for it, and for `X`. -/
def table : PendingTable Job :=
  (({} : PendingTable Job).register (work "A" [symbol "B"])).register (work "B" [symbol "A", symbol "X"])

/-- Work for one symbol is registered twice, and the later one is taken out. -/
def twice : PendingTable Job :=
  let t := (({} : PendingTable Job).register (work "A" [symbol "X"])).register (work "A" [symbol "Y"])
  (t.take? 1).elim t (·.2)

theorem namesProducers_table : table.NamesProducers := by
  have hfirst : (({} : PendingTable Job).register (work "A" [symbol "B"])).Indexed :=
    indexed_empty.register fun _ _ => rfl
  have hindexed : table.Indexed := by
    refine hfirst.register fun key hkey => ?_
    cases hkey
    rfl
  exact hindexed.producers

end Mutual

open Mutual in
/-- Both searches of a circle. -/
theorem searches_exact_circle :
    table.NamesProducers ∧ table.createsCycle (symbol "A") [symbol "B"] ∧
      symbol "X" ∈ table.missingRoots [symbol "A"] ∧ symbol "B" ∉ table.missingRoots [symbol "A"] := by
  have hb : table.get? 1 = some (work "B" [symbol "A", symbol "X"]) := by rfl
  have ha : table.get? 0 = some (work "A" [symbol "B"]) := by rfl
  have hab : table.Edge (symbol "A") (symbol "B") := ⟨0, _, ha, rfl, List.mem_cons_self⟩
  have hba : table.Edge (symbol "B") (symbol "A") := ⟨1, _, hb, rfl, List.mem_cons_self⟩
  have hbx : table.Edge (symbol "B") (symbol "X") :=
    ⟨1, _, hb, rfl, List.mem_cons_of_mem _ List.mem_cons_self⟩
  obtain ⟨hcycle, -⟩ := (searches_exact table (symbol "A") [symbol "B"]).2.2.1 namesProducers_table
  obtain ⟨-, hroots⟩ := (searches_exact table (symbol "A") [symbol "A"]).2.2.1 namesProducers_table
  refine ⟨namesProducers_table, ?_, ?_, ?_⟩
  · exact hcycle.mpr ⟨symbol "B", List.mem_cons_self, .single hba⟩
  · have hnone : table.waitingOf? (symbol "X") = none := by rfl
    exact (hroots _).mpr ⟨⟨symbol "A", List.mem_cons_self, .tail (.single hab) hbx⟩,
      namesProducers_table.waitingOf?_eq_none.mp hnone⟩
  · exact fun h => ((hroots _).mp h).2 1 _ hb rfl

open Mutual in
/-- Where two pieces of registered work have one product, only one of them counts. -/
theorem not_searches_exact_twice :
    ¬ ∀ (t : PendingTable Job) (waiting : List Prerequisite),
      (∀ key, t.createsCycle key waiting ↔ ∃ p ∈ waiting, Relation.ReflTransGen t.Edge p key) ∧
      ∀ q, q ∈ t.missingRoots waiting ↔ (∃ p ∈ waiting, Relation.ReflTransGen t.Edge p q) ∧
          ∀ id w, t.get? id = some w → product? w.work ≠ some q := by
  intro h
  have hget : twice.get? 0 = some (work "A" [symbol "X"]) := by rfl
  have hnone : twice.waitingOf? (symbol "A") = none := by rfl
  have hroot : symbol "A" ∈ twice.missingRoots [symbol "A"] :=
    mem_missingRoots.mpr ⟨⟨symbol "A", List.mem_cons_self, .refl _⟩, hnone⟩
  exact (((h twice [symbol "A"]).2 (symbol "A")).mp hroot).2 0 _ hget rfl

end Assembler.PendingTable
