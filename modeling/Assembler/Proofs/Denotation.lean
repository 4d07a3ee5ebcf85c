import Assembler.Proofs.Composition
import Assembler.Proofs.Evaluation
/-!
What expressions denote.

Once every section has a place and every space a length, the terms of an expression are numbers, and the expression
denotes the number that its operators compute from them modulo 2^32 (`Expr.denote?`). Evaluation works with sections
and spaces that are not placed yet. The value it ends with denotes the same number for every placement that
agrees with the lengths known at the time (`Expr.denote?_of_evaluate`), and it is a plain number as soon as all sections
cancel: no space is left then, or evaluation would have to wait for it.
-/

namespace Assembler

/-! ## 1. Values -/

namespace Value

variable {a : Spaces} (σ : SectionId → Int32) (τ : SpaceId → Int32)

theorem denote_toAddress (v : Value) : v.toAddress.denote σ τ = v.denote σ τ := by
  cases v with
  | absolute n => simp [toAddress, Address.absolute, Address.denote, Terms.value, denote]
  | relocatable x => rfl

theorem denote_add (v w : Value) : (v + w).denote σ τ = v.denote σ τ + w.denote σ τ := by
  have hsum : (v + w).denote σ τ = (v.toAddress + w.toAddress).denote σ τ := by
    cases v <;> cases w <;> try rfl
    rw [Address.denote_add, denote_toAddress, denote_toAddress]
    rfl
  rw [hsum, Address.denote_add, denote_toAddress, denote_toAddress]

theorem denote_sub (v w : Value) : (v - w).denote σ τ = v.denote σ τ - w.denote σ τ := by
  have hdiff : (v - w).denote σ τ = (v.toAddress - w.toAddress).denote σ τ := by
    cases v <;> cases w <;> try rfl
    rw [Address.denote_sub, denote_toAddress, denote_toAddress]
    rfl
  rw [hdiff, Address.denote_sub, denote_toAddress, denote_toAddress]

theorem denote_neg (v : Value) : (-v).denote σ τ = -v.denote σ τ := by
  cases v with
  | absolute n => rfl
  | relocatable x => exact Address.denote_neg σ τ x

/-- Putting lengths in keeps what an address denotes under every placement that agrees with them. -/
theorem denote_normalize {τ : SpaceId → Int32} (hτ : a.Fits τ) (x : Address) :
    (x.normalize a).denote σ τ = x.denote σ τ := by
  have hbytes := Address.bytes_normalize hτ x
  rw [Address.bytes, Address.bytes] at hbytes
  rw [Address.denote, Address.denote, Int32.add_assoc, Int32.add_assoc, hbytes]
  rfl

theorem denote_settle {τ : SpaceId → Int32} (hτ : a.Fits τ) {v w : Value} (h : v.settle a = .resolved w) :
    w.denote σ τ = v.denote σ τ := by
  rcases settle_eq_resolved h with ⟨n, rfl, rfl⟩ | ⟨x, rfl, hempty, rfl⟩
  · rfl
  show _ = x.denote σ τ
  -- Neither the lengths that are put in nor the step to a plain number change what the place denotes.
  rw [← denote_normalize σ hτ x]
  split
  · rename_i habs
    have hbases : (x.normalize a).bases = [] := List.isEmpty_iff.mp habs
    rw [Address.denote, hbases, List.isEmpty_iff.mp (hempty habs)]
    simp [denote, Terms.value]
  · rfl

theorem denote_factor {τ : SpaceId → Int32} (hτ : a.Fits τ) {v : Value} {n : Int32}
    (h : v.factor a = .resolved n) : v.denote σ τ = n := by
  obtain ⟨w, hsettle, hnumber⟩ := Evaluation.andThen_eq_resolved.mp h
  rw [← denote_settle σ hτ hsettle]
  cases w with
  | absolute m => cases hnumber; rfl
  | relocatable x => cases hnumber

/-- Without a section a value is a plain number when it is settled. -/
theorem exists_absolute_of_settle {v w : Value} (h : v.settle a = .resolved w) (hw : w.toAddress.bases = []) :
    ∃ n, w = absolute n := by
  rcases settle_eq_resolved h with ⟨n, -, rfl⟩ | ⟨x, -, -, rfl⟩
  · exact ⟨n, rfl⟩
  · split at hw
    · rename_i habs
      exact ⟨_, if_pos habs⟩
    · rename_i habs
      exact absurd (List.isEmpty_iff.mpr hw) habs

theorem not_isResolved_of_settle (ha : a.Acyclic) {v w : Value} (h : v.settle a = .resolved w) :
    ∀ t ∈ w.toAddress.spaces, ¬ a.isResolved t.1 := by
  rcases settle_eq_resolved h with ⟨n, -, rfl⟩ | ⟨x, -, -, rfl⟩
  · exact fun _ ht => nomatch ht
  · split
    · exact fun _ ht => nomatch ht
    · exact fun t ht => (Address.normal_normalize ha x).isOpen _ (List.mem_map_of_mem ht)

/-! ### Sections listed once -/

/-- Each section at most once, and none with the coefficient zero. -/
def Reduced (v : Value) : Prop := Terms.Reduced v.toAddress.bases

theorem reduced_absolute (n : Int32) : (absolute n).Reduced := Terms.Reduced.nil

theorem reduced_neg (v : Value) : (-v).Reduced := by
  cases v with
  | absolute n => exact reduced_absolute _
  | relocatable x => exact Terms.Reduced.nil.addScaled _ _

theorem Reduced.add {v : Value} (hv : v.Reduced) (w : Value) : (v + w).Reduced := by
  cases v <;> cases w
  case absolute.absolute => exact reduced_absolute _
  all_goals exact Terms.Reduced.addScaled hv _ _

theorem Reduced.sub {v : Value} (hv : v.Reduced) (w : Value) : (v - w).Reduced := by
  cases v <;> cases w
  case absolute.absolute => exact reduced_absolute _
  all_goals exact Terms.Reduced.addScaled hv _ _

theorem Reduced.settle {v w : Value} (hv : v.Reduced) (h : v.settle a = .resolved w) : w.Reduced := by
  rcases settle_eq_resolved h with ⟨n, -, rfl⟩ | ⟨x, rfl, -, rfl⟩
  · exact reduced_absolute n
  · split
    · exact reduced_absolute _
    · exact hv

/-- If the places of the sections make no difference for what a value denotes, all of them cancel. -/
theorem Reduced.bases_eq_nil {v : Value} (hv : v.Reduced) {τ : SpaceId → Int32} {n : Int32}
    (h : ∀ σ, v.denote σ τ = n) : v.toAddress.bases = [] := by
  refine Terms.Reduced.eq_nil hv fun σ => ?_
  -- Compared with all sections at zero, the sections make the whole difference.
  have hzero : v.toAddress.bases.value (fun _ => 0) = 0 := Terms.value_zero _
  have hsame : v.toAddress.denote σ τ = v.toAddress.denote (fun _ => 0) τ := by
    rw [denote_toAddress, denote_toAddress, h, h]
  rw [Address.denote, Address.denote, hzero, Int32.add_assoc, Int32.add_assoc] at hsame
  exact (Int32.add_left_inj _).mp hsame

end Value

/-! ## 2. Expressions -/

/-- The result of an operator on numbers, modulo 2^32. Quotients are cut toward zero, and the quotient by zero is
zero. -/
def Operator.compute : Operator → Int32 → Int32 → Int32
  | add, m, n => m + n
  | sub, m, n => m - n
  | mul, m, n => m * n
  | div, m, n => if n = 0 then 0 else Int32.ofInt (m.toInt.tdiv n.toInt)

theorem Operator.compute_div (m n : Int32) : div.compute m n = m / n := by
  simp only [compute]
  split
  · rename_i hzero
    rw [hzero, Int32.div_zero]
  · rw [← Int32.toInt_inj, Int32.toInt_ofInt, Int32.toInt_div]

/-- Whether symbols and the location counter have values in which each section is listed at most once. -/
structure Scope.Reduced (s : Scope) (f : Frame) : Prop where
  symbol : ∀ n v, s.value? n = some v → v.Reduced
  position : ∀ x, f.position? = some x → x.bases.Reduced

namespace Expr

variable {s : Scope} {f : Frame} {σ : SectionId → Int32} {τ : SpaceId → Int32}

/-- The number that an expression denotes when section `s` starts at `σ s` and space `t` has length `τ t`. There is
none if a term has no value. -/
def denote? (s : Scope) (f : Frame) (σ : SectionId → Int32) (τ : SpaceId → Int32) : Expr → Option Int32
  | number n => some n
  | symbol n => (s.value? n).map (·.denote σ τ)
  | attr kind operand =>
    match s.attributeOf kind operand f with
    | .resolved n => some n
    | _ => none
  | counter => f.position?.map (·.denote σ τ)
  | negate e => (denote? s f σ τ e).map (-·)
  | binary op l r => (denote? s f σ τ l).bind fun m => (denote? s f σ τ r).map (op.compute m)

theorem denote_apply (hτ : s.spaces.Fits τ) {op : Operator} {v w u : Value}
    (h : op.apply s.spaces v w = .resolved u) : u.denote σ τ = op.compute (v.denote σ τ) (w.denote σ τ) := by
  cases op with
  | add => cases h; exact Value.denote_add σ τ v w
  | sub => cases h; exact Value.denote_sub σ τ v w
  | mul =>
    obtain ⟨⟨m, n⟩, hboth, rfl⟩ := Evaluation.map_eq_resolved.mp h
    obtain ⟨hm, hn⟩ := Evaluation.both_eq_resolved.mp hboth
    rw [Value.denote_factor σ hτ hm, Value.denote_factor σ hτ hn]
    rfl
  | div =>
    obtain ⟨⟨m, n⟩, hboth, rfl⟩ := Evaluation.map_eq_resolved.mp h
    obtain ⟨hm, hn⟩ := Evaluation.both_eq_resolved.mp hboth
    rw [Value.denote_factor σ hτ hm, Value.denote_factor σ hτ hn, Operator.compute_div]
    rfl

/-- Before lengths are put in. -/
theorem denote?_of_evaluateOpen (hτ : s.spaces.Fits τ) {e : Expr} {v : Value}
    (h : e.evaluateOpen s f = .resolved v) : e.denote? s f σ τ = some (v.denote σ τ) := by
  induction e generalizing v with
  | number n => cases h; rfl
  | symbol n =>
    unfold evaluateOpen at h
    split at h
    · rename_i w hw
      cases h
      rw [denote?, hw]
      rfl
    · cases h
  | attr kind operand =>
    obtain ⟨n, hn, rfl⟩ := Evaluation.map_eq_resolved.mp h
    rw [denote?, hn]
    rfl
  | counter =>
    unfold evaluateOpen at h
    split at h
    · rename_i x hx
      cases h
      rw [denote?, hx]
      rfl
    · cases h
  | negate e ih =>
    obtain ⟨w, hw, rfl⟩ := Evaluation.map_eq_resolved.mp h
    rw [denote?, ih hw, Option.map_some, Value.denote_neg]
  | binary op l r ihl ihr =>
    obtain ⟨⟨v, w⟩, hboth, happly⟩ := Evaluation.andThen_eq_resolved.mp h
    obtain ⟨hv, hw⟩ := Evaluation.both_eq_resolved.mp hboth
    rw [denote?, ihl hv, ihr hw, Option.bind_some, Option.map_some, denote_apply hτ happly]

theorem reduced_apply {op : Operator} {v w u : Value} (hv : v.Reduced)
    (h : op.apply s.spaces v w = .resolved u) : u.Reduced := by
  cases op with
  | add => cases h; exact hv.add w
  | sub => cases h; exact hv.sub w
  | mul => obtain ⟨_, -, rfl⟩ := Evaluation.map_eq_resolved.mp h; exact Value.reduced_absolute _
  | div => obtain ⟨_, -, rfl⟩ := Evaluation.map_eq_resolved.mp h; exact Value.reduced_absolute _

theorem reduced_evaluateOpen (hs : s.Reduced f) {e : Expr} {v : Value}
    (h : e.evaluateOpen s f = .resolved v) : v.Reduced := by
  induction e generalizing v with
  | number n => cases h; exact Value.reduced_absolute n
  | symbol n =>
    unfold evaluateOpen at h
    split at h
    · rename_i w hw
      cases h
      exact hs.symbol n v hw
    · cases h
  | attr kind operand =>
    obtain ⟨n, -, rfl⟩ := Evaluation.map_eq_resolved.mp h
    exact Value.reduced_absolute n
  | counter =>
    unfold evaluateOpen at h
    split at h
    · rename_i x hx
      cases h
      exact hs.position x hx
    · cases h
  | negate e _ =>
    obtain ⟨w, -, rfl⟩ := Evaluation.map_eq_resolved.mp h
    exact Value.reduced_neg w
  | binary op l r ihl _ =>
    obtain ⟨⟨v, w⟩, hboth, happly⟩ := Evaluation.andThen_eq_resolved.mp h
    exact reduced_apply (ihl (Evaluation.both_eq_resolved.mp hboth).1) happly

theorem evaluate_eq_resolved {e : Expr} {v : Value} (h : e.evaluate s f = .resolved v) :
    ∃ u, e.evaluateOpen s f = .resolved u ∧ u.settle s.spaces = .resolved v := by
  unfold evaluate at h
  split at h
  · rename_i u hu
    exact ⟨u, hu, h⟩
  · rename_i hother
    exact absurd h (hother v)

/-- A value that evaluation ends with denotes what the expression denotes, for every placement that agrees with
the lengths known. The spaces left in it are open, and it is a plain number if no section is left in it, as is the
case if the expression denotes that number wherever sections and spaces are placed. -/
theorem denote?_of_evaluate (hs : ∀ t, ¬ Relation.TransGen s.spaces.Mentions t t) {e : Expr} {v : Value}
    (h : e.evaluate s f = .resolved v) :
    (∀ σ τ, s.spaces.Fits τ → e.denote? s f σ τ = some (v.denote σ τ)) ∧
    (∀ t ∈ v.toAddress.spaces, ¬ s.spaces.isResolved t.1) ∧
    (v.toAddress.bases = [] → ∃ n, v = .absolute n) ∧
    (s.Reduced f → ∀ n, (∀ σ τ, s.spaces.Fits τ → e.denote? s f σ τ = some n) → v = .absolute n) := by
  have hacyclic := Spaces.acyclic_iff.mpr hs
  obtain ⟨u, hopen, hsettle⟩ := evaluate_eq_resolved h
  have hdenote : ∀ σ τ, s.spaces.Fits τ → e.denote? s f σ τ = some (v.denote σ τ) := fun σ τ hτ => by
    rw [denote?_of_evaluateOpen hτ hopen, Value.denote_settle σ hτ hsettle]
  have hplain : v.toAddress.bases = [] → ∃ n, v = .absolute n := Value.exists_absolute_of_settle hsettle
  refine ⟨hdenote, Value.not_isResolved_of_settle hacyclic hsettle, hplain, fun hreduced n hn => ?_⟩
  -- Under a placement that fits, only the sections can make a difference.
  obtain ⟨τ, hτ, -⟩ := Spaces.exists_fits hacyclic fun _ => 0
  have hconst : ∀ σ, v.denote σ τ = n := fun σ => Option.some.inj ((hdenote σ τ hτ).symm.trans (hn σ τ hτ))
  obtain ⟨m, rfl⟩ := hplain (((reduced_evaluateOpen hreduced hopen).settle hsettle).bases_eq_nil hconst)
  exact congrArg Value.absolute (hconst fun _ => 0)

/-! ### A known difference between two open places -/

/-- A symbol behind the first of two spaces, whose length is known in part. -/
def openScope : Scope where
  value? _ := some (.relocatable ((Address.start ⟨0⟩).addSpace ⟨0⟩ 1))
  attributeOf _ _ _ := .resolved 1
  spaces := Address.halfKnown

/-- A statement behind the second of them. -/
def openFrame : Frame := { position? := some (((Address.start ⟨0⟩).addSpace ⟨1⟩ 1).addOffset 2) }

/-- The distance between the two is known, so it may be tripled before it is added to the place of the symbol. With
the section at 1000 and the second space four bytes long that place is 1012. -/
theorem denote?_of_evaluate_halfKnown :
    let place := symbol (.ofString "A")
    let e := binary .add (binary .mul (binary .sub place counter) (number 3)) place
    let v := Value.relocatable (((Address.start ⟨0⟩).addSpace ⟨1⟩ 1).addOffset 26)
    e.evaluate openScope openFrame = .resolved v ∧
    e.denote? openScope openFrame (fun _ => 1000) (fun s => if s = ⟨0⟩ then 12 else 4) = some 1030 ∧
    (binary .sub place counter).evaluate openScope openFrame = .resolved (.absolute 6) := by
  intro place e v
  have hvalue : e.evaluate openScope openFrame = .resolved v := rfl
  have hfits : Address.halfKnown.Fits fun s => if s = ⟨0⟩ then 12 else 4 := Address.fits_halfKnown (by decide)
  refine ⟨hvalue, ?_, rfl⟩
  rw [(denote?_of_evaluate Address.acyclic_halfKnown.not_mentions hvalue).1 _ _ hfits]
  decide

end Expr

end Assembler
