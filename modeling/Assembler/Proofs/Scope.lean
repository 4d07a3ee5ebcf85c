import Assembler.Proofs.Stability
/-!
Spaces that exist.

Lengths, values and addresses are in terms of spaces that exist (`Spaces.Closed`, `Address.LiesIn`). This
stays so when spaces are added, and evaluation and substitution keep to it (`liesIn_evaluate`,
`Address.LiesIn.normalize`). So a question about the spaces of an address has the same answer later.
-/

namespace Assembler

/-! ## 1. Existing spaces -/

namespace Spaces

/-- Whether all spaces of a combination exist. -/
def Holds (a : Spaces) (ts : Terms SpaceId) : Prop := ∀ s ∈ ts.map Prod.fst, s.index < a.size

/-- An existing space belongs to the same counter later. -/
theorem Earlier.all_counter {a b : Spaces} (h : a.Earlier b) {s : SpaceId}
    (hs : s.index < a.size) (P : CounterId → Bool) :
    (b.get? s).all (P ·.counter) = (a.get? s).all (P ·.counter) := by
  cases hg : a.get? s with
  | none => exact absurd (get?_eq_none_iff.mp hg) (by omega)
  | some space =>
    obtain ⟨later, hlater, -⟩ := h s space hg
    rw [hlater]
    rfl

/-- Whether lengths are in terms of spaces that exist. -/
def Closed (a : Spaces) : Prop := ∀ s length, a.length? s = some length → a.Holds length.spaces

variable {a b : Spaces} {s : SpaceId}

theorem Holds.later {ts : Terms SpaceId} (h : a.Holds ts) (hab : a.Earlier b) : b.Holds ts := by
  intro s hs
  have hlt := h s hs
  have hle := hab.size_le
  omega

theorem Holds.nil : a.Holds [] := fun _ hs => nomatch hs

theorem mem_keys_foldr_insert {us : List (SpaceId × Int)} {t : SpaceId}
    (h : t ∈ (us.foldr (fun (s, k) rest =>
      Terms.insert SpaceId.precedes s (Int32.ofInt k) rest) []).map Prod.fst) :
    t ∈ us.map Prod.fst := by
  induction us with
  | nil => exact h
  | cons u us ih =>
    rw [List.foldr_cons] at h
    rcases Terms.mem_keys_insert h with rfl | h
    · exact List.mem_cons_self
    · exact List.mem_cons_of_mem _ (ih h)

section Keys

variable {P : SpaceId → Prop}
  (hP : ∀ s length, P s → a.length? s = some length → ∀ t ∈ length.spaces.map Prod.fst, P t)

include hP

theorem forall_keys_expand {e : Extent} (h : ∀ s ∈ e.spaces.map Prod.fst, P s) :
    ∀ t ∈ (a.expand e).spaces.map Prod.fst, P t := by
  intro t ht
  rcases mem_keys_expand ht with ⟨hmem, -⟩ | ⟨s, length, hs, hl, ht⟩
  · exact h t hmem
  · exact hP s length (h s hs) hl t ht

theorem forall_keys_expandAll (times : Nat) {e : Extent} (h : ∀ s ∈ e.spaces.map Prod.fst, P s) :
    ∀ t ∈ (a.expandAll times e).spaces.map Prod.fst, P t := by
  induction times generalizing e with
  | zero => exact h
  | succ times ih =>
    unfold expandAll
    split
    · exact ih (forall_keys_expand hP h)
    · exact h

/-- What passes from spaces on to those in their lengths holds of the spaces that substitution leaves. -/
theorem forall_keys_substitute {ts : Terms SpaceId} (h : ∀ s ∈ ts.map Prod.fst, P s) :
    ∀ t ∈ (a.substitute ts).2.map Prod.fst, P t := by
  intro t ht
  refine forall_keys_expandAll hP a.size ?_ t (mem_keys_foldr_insert ht)
  intro s hs
  have hkeys : (Extent.ofTerms ts).spaces.map Prod.fst = ts.map Prod.fst := by
    rw [Extent.ofTerms, List.map_map]
    rfl
  rw [hkeys] at hs
  exact h s hs

end Keys

/-- Substitution leaves spaces that exist. -/
theorem Closed.holds_substitute (ha : a.Closed) {ts : Terms SpaceId} (h : a.Holds ts) :
    a.Holds (a.substitute ts).2 :=
  forall_keys_substitute (fun s length _ => ha s length) h

theorem closed_empty : Closed {} := by
  intro s length hl
  cases hl

theorem Closed.create (ha : a.Closed) (kind : SpaceKind) (counter : CounterId) (g : Alignment) :
    (a.create kind counter g).2.Closed := by
  intro s length hl
  rw [length?_create] at hl
  exact (ha s length hl).later (earlier_create a kind counter g)

theorem Closed.resolve? (ha : a.Closed) {length : Length} (ho : a.Holds length.spaces)
    (h : a.resolve? s length = some b) : b.Closed := by
  have hab := earlier_of_resolve? h
  intro t l hl
  rw [length?_of_resolve? h] at hl
  split at hl
  · cases hl
    exact ho.later hab
  · exact (ha t l hl).later hab

end Spaces

/-! ## 2. Addresses in terms of existing spaces -/

/-- A new key of a combination is the one inserted. -/
theorem Terms.mem_keys_addScaled {ts us : Terms SpaceId} {sign : Int32} {s : SpaceId}
    (h : s ∈ (ts.addScaled us sign).map Prod.fst) :
    s ∈ ts.map Prod.fst ∨ s ∈ us.map Prod.fst := by
  induction us generalizing ts with
  | nil => exact .inl h
  | cons u rest ih =>
    have h : s ∈ ((ts.add u.1 (u.2 * sign)).addScaled rest sign).map Prod.fst := h
    rcases ih h with h | h
    · rcases Terms.mem_keys_insert h with rfl | h
      · exact .inr List.mem_cons_self
      · exact .inl h
    · exact .inr (List.mem_cons_of_mem _ h)

namespace Address

/-- Whether an address is in terms of spaces that exist. -/
def LiesIn (a : Spaces) (x : Address) : Prop := a.Holds x.spaces

variable {a b : Spaces} {x y : Address}

theorem LiesIn.later (h : x.LiesIn a) (hab : a.Earlier b) : x.LiesIn b := Spaces.Holds.later h hab

theorem liesIn_of_spaces_nil (h : x.spaces = []) : x.LiesIn a := by
  intro s hs
  rw [h] at hs
  cases hs

theorem LiesIn.addScaled (hx : x.LiesIn a) (hy : y.LiesIn a) (sign : Int32) :
    (x.addScaled y sign).LiesIn a := by
  intro s hs
  rcases Terms.mem_keys_addScaled hs with hs | hs
  · exact hx s hs
  · exact hy s hs

theorem LiesIn.addSpace (hx : x.LiesIn a) {s : SpaceId} (hs : s.index < a.size) (k : Int32) :
    (x.addSpace s k).LiesIn a := by
  intro t ht
  rcases Terms.mem_keys_insert ht with rfl | ht
  · exact hs
  · exact hx t ht

theorem LiesIn.normalize (hx : x.LiesIn a) (ha : a.Closed) : (x.normalize a).LiesIn a :=
  ha.holds_substitute hx

theorem LiesIn.roundUp (hx : x.LiesIn a) (ha : a.Closed) {boundary : Nat}
    (h : x.roundUp a boundary = .ok y) : y.LiesIn a := by
  simp only [Address.roundUp] at h
  split at h
  · cases h
    exact hx.normalize ha
  split at h
  · cases h
    exact hx.normalize ha
  · cases h

/-- Whether the open spaces of an address belong to a counter depends on nothing but these. -/
theorem within_eq (hab : a.Earlier b) (hx : (x.normalize a).LiesIn a)
    (hopen : y.openSpaces b = x.openSpaces a) (c : CounterId) : y.within b c = x.within a c := by
  have each : ∀ s ∈ x.openSpaces a, (b.get? s).all (·.counter = c) =
      (a.get? s).all (·.counter = c) := fun s hs => hab.all_counter (hx s hs) (decide <| · = c)
  unfold within
  rw [hopen, Bool.eq_iff_iff, List.all_eq_true, List.all_eq_true]
  exact forall₂_congr fun s hs => by rw [each s hs]

/-- The highest of some candidates is one of them. -/
theorem mem_of_highest {candidates : List Address}
    (h : highest a candidates = .ok x) : x ∈ candidates := by
  cases candidates with
  | nil => cases h
  | cons first others =>
    have fold : ∀ (others : List Address) (state : Address × List SpaceId),
        (others.foldl (highestStep a) state).1 ∈ state.1 :: others := by
      intro others
      induction others with
      | nil => exact fun _ => List.mem_cons_self
      | cons c rest ih =>
        intro state
        have hstep : (highestStep a state c).1 = state.1 ∨ (highestStep a state c).1 = c := by
          simp only [highestStep]
          split
          · split
            · exact .inr rfl
            · exact .inl rfl
          · exact .inl rfl
        rw [List.foldl_cons]
        rcases List.mem_cons.mp (ih (highestStep a state c)) with h | h
        · rw [h]
          rcases hstep with he | he
          · rw [he]; exact List.mem_cons_self
          · rw [he]; exact List.mem_cons_of_mem _ List.mem_cons_self
        · exact List.mem_cons_of_mem _ (List.mem_cons_of_mem _ h)
    rw [← (highest_eq_ok.mp h).2]
    exact fold others (first, [])

end Address

/-- The spaces of a value. -/
abbrev Value.LiesIn (a : Spaces) (v : Value) : Prop :=
  v.toAddress.LiesIn a

namespace Value

variable {a : Spaces} {v w : Value}

theorem liesIn_absolute (n : Int32) : (absolute n).LiesIn a := Address.liesIn_of_spaces_nil rfl

theorem LiesIn.add (hv : v.LiesIn a) (hw : w.LiesIn a) : (v + w).LiesIn a := by
  have hsum := Address.LiesIn.addScaled hv hw 1
  cases v <;> cases w
  · exact liesIn_absolute _
  · exact hsum
  · exact hsum
  · exact hsum

theorem LiesIn.sub (hv : v.LiesIn a) (hw : w.LiesIn a) : (v - w).LiesIn a := by
  have hsum := Address.LiesIn.addScaled hv hw (-1)
  cases v <;> cases w
  · exact liesIn_absolute _
  · exact hsum
  · exact hsum
  · exact hsum

theorem LiesIn.neg (hv : v.LiesIn a) : (-v).LiesIn a := by
  cases v with
  | absolute n => exact liesIn_absolute _
  | relocatable x =>
    have hzero : Address.LiesIn a {} := Address.liesIn_of_spaces_nil rfl
    exact hzero.addScaled hv (-1)

theorem LiesIn.settle (hv : v.LiesIn a) (ha : a.Closed) (h : v.settle a = .resolved w) :
    w.LiesIn a := by
  rcases settle_eq_resolved h with ⟨n, -, rfl⟩ | ⟨x, rfl, -, rfl⟩
  · exact liesIn_absolute n
  · split
    · exact liesIn_absolute _
    · exact Address.LiesIn.normalize hv ha

theorem LiesIn.simplify (hv : v.LiesIn a) (ha : a.Closed) : (v.simplify a).LiesIn a := by
  cases v with
  | absolute n => exact liesIn_absolute n
  | relocatable x =>
    simp only [Value.simplify]
    split
    · exact liesIn_absolute _
    · exact Address.LiesIn.normalize hv ha

end Value

/-! ## 3. Results of evaluation -/

namespace Evaluation

variable {α β : Type}

theorem value?_ofExcept {x : Except (List SpaceId) α} {a : α} : (ofExcept x).value? = some a ↔ x = .ok a := by
  cases x with
  | ok b => exact ⟨fun h => by cases h; rfl, fun h => by cases h; rfl⟩
  | error spaces => exact ⟨fun h => (nomatch h), fun h => (nomatch h)⟩

theorem exists_of_value?_map {b : β} {f : α → β} {x : Evaluation α} (h : (x.map f).value? = some b) :
    ∃ a, x.value? = some a ∧ f a = b :=
  Option.map_eq_some_iff.mp ((value?_map f x).symm.trans h)

theorem value?_andThen {instead b : β} {f : α → Evaluation β} {x : Evaluation α}
    (h : (x.andThen instead f).value? = some b) :
    b = instead ∨ ∃ a, x = resolved a ∧ (f a).value? = some b := by
  cases x with
  | resolved a => exact .inr ⟨a, rfl, h⟩
  | blocked waiting => cases h
  | fallback a fault => cases h; exact .inl rfl

end Evaluation

/-- Whether the position in a frame is in terms of existing spaces. -/
def Frame.Scoped (a : Spaces) (f : Frame) : Prop :=
  ∀ x, f.position? = some x → x.LiesIn a

namespace Assembly

/-- Whether the lengths of spaces and the values of symbols are in terms of spaces as they should be. -/
structure Scoped (s : Assembly) : Prop where
  closed : s.layout.spaces.Closed
  values : ∀ n sym v, s.symbols.get? n = some sym → sym.value? = some v →
    v.LiesIn s.layout.spaces

variable {s : Assembly}

theorem liesIn_apply {op : Operator} {v w u : Value}
    (hv : v.LiesIn s.layout.spaces) (hw : w.LiesIn s.layout.spaces)
    (h : (op.apply s.layout.spaces v w).value? = some u) : u.LiesIn s.layout.spaces := by
  cases op with
  | add => cases h; exact hv.add hw
  | sub => cases h; exact hv.sub hw
  | mul | div =>
    obtain ⟨n, -, rfl⟩ := Evaluation.exists_of_value?_map h
    exact Value.liesIn_absolute _

theorem liesIn_evaluateOpen (hs : s.Scoped) {f : Frame} (hf : f.Scoped s.layout.spaces) {e : Expr}
    {v : Value} (h : (e.evaluateOpen s.scope f).value? = some v) :
    v.LiesIn s.layout.spaces := by
  induction e generalizing v with
  | number n => cases h; exact Value.liesIn_absolute n
  | symbol n =>
    simp only [Expr.evaluateOpen] at h
    split at h
    · rename_i u hu
      cases h
      obtain ⟨sym, hsym, hval⟩ := Option.bind_eq_some_iff.mp hu
      exact hs.values n sym v hsym hval
    · cases h
  | attr kind operand =>
    obtain ⟨n, -, rfl⟩ := Evaluation.exists_of_value?_map h
    exact Value.liesIn_absolute n
  | counter =>
    simp only [Expr.evaluateOpen] at h
    split at h
    · rename_i x hx
      cases h
      exact hf x hx
    · cases h; exact Value.liesIn_absolute 0
  | negate e ih =>
    obtain ⟨u, hu, rfl⟩ := Evaluation.exists_of_value?_map h
    exact (ih hu).neg
  | binary op l r ihl ihr =>
    rcases Evaluation.value?_andThen h with rfl | ⟨⟨x, y⟩, hxy, hu⟩
    · exact Value.liesIn_absolute 0
    · obtain ⟨hx, hy⟩ := Evaluation.both_eq_resolved.mp hxy
      exact liesIn_apply (ihl (by rw [hx]; rfl)) (ihr (by rw [hy]; rfl)) hu

theorem liesIn_evaluate (hs : s.Scoped) {f : Frame} (hf : f.Scoped s.layout.spaces) {e : Expr}
    {v : Value} (h : (s.evaluate e f).value? = some v) : v.LiesIn s.layout.spaces := by
  have hopen := fun u => liesIn_evaluateOpen hs hf (e := e) (v := u)
  simp only [evaluate, Expr.evaluate] at h
  split at h
  · rename_i u hu
    have hu' := hopen u (by rw [hu]; rfl)
    cases hset : u.settle s.scope.spaces with
    | resolved w =>
      rw [hset] at h
      cases h
      exact hu'.settle hs.closed hset
    | blocked waiting => rw [hset] at h; cases h
    | fallback w fault =>
      cases u with
      | absolute n => cases hset
      | relocatable x =>
        rw [Value.settle_relocatable] at hset
        split at hset
        · cases hset
        · unfold Address.settled at hset
          split at hset <;> cases hset
  · exact hopen v h

end Assembly

end Assembler
