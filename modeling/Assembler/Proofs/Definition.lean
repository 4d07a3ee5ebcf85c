import Assembler.Assembly.Finish
import Assembler.Proofs.Arrangement
/-!
What a definition changes.

A definition fills in the value or an attribute of one symbol, or gives one space its length
(`define?_eq_some`). So what was lacking is lacking after that, except for the product of the definition
(`lacks_define?`), and nothing else that is expected ceases to be expected (`expects_define?`).
-/

namespace Assembler

/-! ## 1. The symbol table -/

namespace SymbolTable

variable {t u : SymbolTable} {n m : Name}

theorem get?_insert (t : SymbolTable) (n m : Name) (sym : Symbol) :
    (⟨t.entries.insert n sym⟩ : SymbolTable).get? m = if m = n then some sym else t.get? m := by
  show (t.entries.insert n sym)[m]? = _
  rw [Std.ExtTreeMap.getElem?_insert]
  by_cases h : m = n
  · rw [if_pos h, if_pos (by rw [h]; exact Std.ReflOrd.compare_self)]
  · rw [if_neg h, if_neg (fun he => h (Std.LawfulEqOrd.eq_of_compare he).symm)]
    rfl

theorem get?_empty (n : Name) : ({} : SymbolTable).get? n = none := Std.ExtTreeMap.getElem?_empty

theorem update?_eq_some {f : Symbol → Option Symbol} (h : t.update? n f = some u) :
    ∃ sym sym', t.get? n = some sym ∧ f sym = some sym' ∧
      ∀ m, u.get? m = if m = n then some sym' else t.get? m := by
  simp only [update?, Option.bind_eq_bind, Option.bind_eq_some_iff] at h
  obtain ⟨sym, hsym, sym', hsym', hu⟩ := h
  cases hu
  exact ⟨sym, sym', hsym, hsym', fun m => get?_insert t n m sym'⟩

theorem create?_eq_some {sym : Symbol} (h : t.create? sym = some u) :
    t.get? sym.name = none ∧ ∀ m, u.get? m = if m = sym.name then some sym else t.get? m := by
  unfold create? at h
  split at h
  · cases h
  · rename_i hno
    cases h
    exact ⟨by simpa [contains] using hno, fun m => get?_insert t sym.name m sym⟩

end SymbolTable

/-! ## 2. What a definition fills in -/

/-- Whether a definition for the symbol `sym` of a name turns it into `sym'`. -/
inductive Fills (a : Spaces) (n : Name) (sym : Symbol) : Definition → Symbol → Prop
  | value (v : Value) : sym.value? = none →
    Fills a n sym (.value n v) { sym with value? := some (v.simplify a) }
  | length (k : Nat) : sym.attributes.length = .pending →
    Fills a n sym (.length n k)
      { sym with attributes := { sym.attributes with length := .known k } }
  | scale (k : Int32) : sym.attributes.scale = .pending →
    Fills a n sym (.scale n k)
      { sym with attributes := { sym.attributes with scale := .known k } }
  | integer (k : Int32) : sym.attributes.integer = .pending →
    Fills a n sym (.integer n k)
      { sym with attributes := { sym.attributes with integer := .known k } }

theorem Slot.fill?_eq_some {α : Type} {a : α} {slot slot' : Slot α} :
    slot.fill? a = some slot' ↔ slot = .pending ∧ slot' = .known a := by
  cases slot <;> simp [Slot.fill?, eq_comm]

/-- A slot of a symbol is filled only while it is pending. -/
theorem SymbolTable.exists_of_update?_fill? {α : Type} {t u : SymbolTable} {n : Name} {a : α}
    (slot : Symbol → Slot α) {put : Symbol → Slot α → Symbol}
    (h : t.update? n (fun sym => ((slot sym).fill? a).bind fun filled => some (put sym filled)) = some u) :
    ∃ sym, t.get? n = some sym ∧ slot sym = .pending ∧
      ∀ m, u.get? m = if m = n then some (put sym (.known a)) else t.get? m := by
  obtain ⟨sym, sym', hsym, hfill, hget⟩ := update?_eq_some h
  obtain ⟨filled, hfilled, hsym'⟩ := Option.bind_eq_some_iff.mp hfill
  obtain ⟨hpending, rfl⟩ := Slot.fill?_eq_some.mp hfilled
  cases hsym'
  exact ⟨sym, hsym, hpending, hget⟩

namespace Assembly

variable {s t : Assembly} {d : Definition}

/-- A definition fills in something of a symbol, or it gives a space its length. -/
theorem define?_eq_some (h : s.define? d = some t) :
    (∃ n sym sym' symbols, s.symbols.get? n = some sym ∧ Fills s.layout.spaces n sym d sym' ∧
      (∀ m, symbols.get? m = if m = n then some sym' else s.symbols.get? m) ∧
        t = { s with symbols }) ∨
      ∃ space length spaces, d = .space space length ∧
        s.layout.spaces.resolve? space length = some spaces ∧
          t = { s with layout := { s.layout with spaces } } := by
  cases d with
  | nothing => cases h
  | space space length =>
    obtain ⟨spaces, hspaces, rfl⟩ := Option.map_eq_some_iff.mp h
    exact .inr ⟨space, length, spaces, rfl, hspaces, rfl⟩
  | value n v =>
    obtain ⟨symbols, hset, rfl⟩ := Option.map_eq_some_iff.mp h
    obtain ⟨sym, sym', hsym, hfill, hget⟩ := SymbolTable.update?_eq_some hset
    split at hfill
    · cases hfill
    · rename_i hundef
      cases hfill
      have hnone : sym.value? = none := by simpa [Symbol.isDefined] using hundef
      exact .inl ⟨n, sym, _, symbols, hsym, .value v hnone, hget, rfl⟩
  | length n k =>
    obtain ⟨symbols, hset, rfl⟩ := Option.map_eq_some_iff.mp h
    obtain ⟨sym, hsym, hpending, hget⟩ := SymbolTable.exists_of_update?_fill? (·.attributes.length) hset
    exact .inl ⟨n, sym, _, symbols, hsym, .length k hpending, hget, rfl⟩
  | scale n k =>
    obtain ⟨symbols, hset, rfl⟩ := Option.map_eq_some_iff.mp h
    obtain ⟨sym, hsym, hpending, hget⟩ := SymbolTable.exists_of_update?_fill? (·.attributes.scale) hset
    exact .inl ⟨n, sym, _, symbols, hsym, .scale k hpending, hget, rfl⟩
  | integer n k =>
    obtain ⟨symbols, hset, rfl⟩ := Option.map_eq_some_iff.mp h
    obtain ⟨sym, hsym, hpending, hget⟩ := SymbolTable.exists_of_update?_fill? (·.attributes.integer) hset
    exact .inl ⟨n, sym, _, symbols, hsym, .integer k hpending, hget, rfl⟩

end Assembly

theorem Fills.earlier {a : Spaces} {n : Name} {sym sym' : Symbol} {d : Definition}
    (h : Fills a n sym d sym') : sym.Earlier sym' := by
  cases h with
  | value v hv => exact ⟨rfl, .inl hv, rfl, .refl _, .refl _, .refl _⟩
  | length k hk => exact ⟨rfl, .inr rfl, rfl, .inl hk, .refl _, .refl _⟩
  | scale k hk => exact ⟨rfl, .inr rfl, rfl, .refl _, .inl hk, .refl _⟩
  | integer k hk => exact ⟨rfl, .inr rfl, rfl, .refl _, .refl _, .inl hk⟩

namespace Assembly

variable {s t : Assembly} {d : Definition}

/-- Whether something of a symbol is to be filled in, or an existing space is to get a length. -/
def Expects (s : Assembly) : Prerequisite → Prop
  | .symbol n => ∃ sym, s.symbols.get? n = some sym ∧ sym.value? = none
  | .attr n .length => ∃ sym, s.symbols.get? n = some sym ∧ sym.attributes.length = .pending
  | .attr n .scale => ∃ sym, s.symbols.get? n = some sym ∧ sym.attributes.scale = .pending
  | .attr n .integer => ∃ sym, s.symbols.get? n = some sym ∧ sym.attributes.integer = .pending
  | .attr _ _ => False
  | .space space => space.index < s.layout.spaces.size ∧ ¬ s.layout.spaces.isResolved space

/-- What is expected depends on the symbols and the spaces only. -/
theorem expects_of_eq (hsymbols : t.symbols = s.symbols)
    (hspaces : t.layout.spaces = s.layout.spaces) (key : Prerequisite) :
    t.Expects key ↔ s.Expects key := by
  cases key with
  | symbol n => rw [Expects, Expects, hsymbols]
  | attr n kind => cases kind <;> simp only [Expects, hsymbols]
  | space space => rw [Expects, Expects, hspaces]

/-- What a definition does not touch stays as it is. -/
structure Keeps (s t : Assembly) : Prop where
  settings : t.settings = s.settings
  pendings : t.pendings = s.pendings
  variableValues : t.variableValues = s.variableValues
  macros : t.macros = s.macros
  diagnostics : t.diagnostics = s.diagnostics
  worklist : t.worklist = s.worklist
  stalled : t.stalled = s.stalled
  finished : t.finished = s.finished
  reported : t.reported = s.reported
  counters : t.layout.counters = s.layout.counters
  layout : t.layout.sections = s.layout.sections ∧ t.layout.current? = s.layout.current? ∧
    t.layout.counterAlignment = s.layout.counterAlignment
  size : t.layout.spaces.size = s.layout.spaces.size

theorem keeps_define? (h : s.define? d = some t) : s.Keeps t := by
  rcases define?_eq_some h with ⟨n, sym, sym', symbols, -, -, -, rfl⟩ |
    ⟨space, length, spaces, -, hspaces, rfl⟩
  · exact ⟨rfl, rfl, rfl, rfl, rfl, rfl, rfl, rfl, rfl, rfl, ⟨rfl, rfl, rfl⟩, rfl⟩
  · exact ⟨rfl, rfl, rfl, rfl, rfl, rfl, rfl, rfl, rfl, rfl, ⟨rfl, rfl, rfl⟩,
      Spaces.size_of_resolve? hspaces⟩

theorem earlier_define? (h : s.define? d = some t) : s.Earlier t := by
  rcases define?_eq_some h with ⟨n, sym, sym', symbols, hsym, hfill, hget, rfl⟩ |
    ⟨space, length, spaces, -, hspaces, rfl⟩
  · refine ⟨fun m other hother => ?_, .refl _, fun _ => id, fun _ => id⟩
    by_cases hm : m = n
    · subst hm
      rw [hsym] at hother
      cases hother
      exact ⟨sym', by rw [hget, if_pos rfl], hfill.earlier⟩
    · exact ⟨other, by rw [hget, if_neg hm, hother], .refl other⟩
  · exact ⟨fun m sym hsym => ⟨sym, hsym, .refl sym⟩, Spaces.earlier_of_resolve? hspaces,
      fun _ => id, fun _ => id⟩

theorem formed_define? (hs : s.layout.Formed) (h : s.define? d = some t) : t.layout.Formed := by
  have hle := (earlier_define? h).spaces
  have hk := keeps_define? h
  obtain ⟨hsections, hcurrent, -⟩ := hk.layout
  refine ⟨?_, ?_, ?_, ?_, ?_, ?_, ?_⟩
  · rw [hk.counters]
    exact fun i c hc => (hs.places i c hc).later hle
  · rw [hk.counters, hcurrent]
    exact hs.current
  · rw [hk.counters, hsections]
    exact hs.active
  · rw [hk.counters, hsections]
    exact hs.owned
  · rw [hk.counters, hsections]
    exact hs.listed
  · rw [hk.counters]
    exact hs.starts
  · rw [hk.counters, hsections]
    exact hs.begun

/-- A sound definition keeps an assembly well-formed. -/
theorem wellFormed_define? (hs : s.WellFormed) (hd : d.Sound s.layout.spaces)
    (h : s.define? d = some t) : t.WellFormed := by
  have hle := earlier_define? h
  rcases define?_eq_some h with ⟨n, sym, sym', symbols, hsym, hfill, hget, rfl⟩ |
    ⟨space, length, spaces, rfl, hspaces, rfl⟩
  · refine ⟨fun m other hother => ?_, hs.acyclic, hs.inScope.closed, fun m other v hother hv => ?_⟩
    · rw [hget] at hother
      split at hother
      · rename_i hm
        cases hother
        rw [hfill.earlier.name, hm]
        exact hs.named n sym hsym
      · exact hs.named m other hother
    · rw [hget] at hother
      split at hother
      · cases hother
        cases hfill with
        | value w _ =>
          cases hv
          exact Value.LiesIn.simplify hd hs.inScope.closed
        | length | scale | integer => exact hs.inScope.values n sym v hsym hv
      · exact hs.inScope.values m other v hother hv
  · refine ⟨hs.named, hs.acyclic.resolve? hd.isOpen hspaces,
      hs.inScope.closed.resolve? hd.holds hspaces,
      fun m sym v hsym hv => ?_⟩
    exact Address.LiesIn.later (hs.inScope.values m sym v hsym hv) hle.spaces

/-- What is lacking stays lacking, except for the product of the definition. -/
theorem lacks_define? (h : s.define? d = some t) {key : Prerequisite} (hl : s.Lacks key)
    (hne : d.product? ≠ some key) : t.Lacks key := by
  rcases define?_eq_some h with ⟨n, sym, sym', symbols, hsym, hfill, hget, rfl⟩ |
    ⟨space, length, spaces, rfl, hspaces, rfl⟩
  · -- Only the symbol `n` changes, and of it only what is filled in.
    have other : ∀ m (P : Symbol → Prop), (∀ x, s.symbols.get? m = some x → P x) →
        (m = n → P sym') → ∀ x, symbols.get? m = some x → P x := by
      intro m P hold hnew x hx
      rw [hget] at hx
      split at hx
      · cases hx
        exact hnew ‹_›
      · exact hold x hx
    cases key with
    | space space => exact hl
    | symbol m =>
      refine other m _ hl fun hm => ?_
      subst hm
      cases hfill with
      | value v _ => exact absurd rfl hne
      | length | scale | integer => exact hl sym hsym
    | attr m kind =>
      cases kind with
      | length | scale | integer =>
        -- The attribute that is filled in is the product; the others stay.
        refine other m _ hl fun hm => ?_
        subst hm
        cases hfill <;> first | exact hl sym hsym | exact absurd rfl hne
      | type =>
        show symbols.get? m = none
        rw [hget, if_neg]
        · exact hl
        · rintro rfl
          rw [show s.symbols.get? m = none from hl] at hsym
          cases hsym
      | opcode => exact hl
      | count | number | defined => exact hl
  · cases key with
    | symbol m => exact hl
    | attr m kind => cases kind <;> exact hl
    | space other =>
      intro hres
      rw [show ({ s with layout := { s.layout with spaces } } : Assembly).layout.spaces.isResolved
        other = spaces.isResolved other from rfl, Spaces.isResolved_of_resolve? hspaces] at hres
      rcases Bool.or_eq_true_iff.mp hres with he | hres
      · have he := of_decide_eq_true he
        subst he
        exact hne rfl
      · exact hl hres

/-- A definition ends the expectation of its product and no other. -/
theorem expects_define? (h : s.define? d = some t) (key : Prerequisite) :
    t.Expects key ↔ s.Expects key ∧ d.product? ≠ some key := by
  rcases define?_eq_some h with ⟨n, sym, sym', symbols, hsym, hfill, hget, rfl⟩ |
    ⟨space, length, spaces, rfl, hspaces, rfl⟩
  · -- What is expected of a symbol depends on that symbol only, so the names are compared first.
    have each : ∀ m (P : Symbol → Prop) (key : Prerequisite),
        (m = n → (P sym' ↔ P sym ∧ d.product? ≠ some key)) →
        (m ≠ n → d.product? ≠ some key) →
        ((∃ x, symbols.get? m = some x ∧ P x) ↔
          (∃ x, s.symbols.get? m = some x ∧ P x) ∧ d.product? ≠ some key) := by
      intro m P key hsame hdiff
      rw [hget]
      by_cases hm : m = n
      · rw [if_pos hm, hm, hsym]
        simpa using hsame hm
      · rw [if_neg hm]
        exact (and_iff_left (hdiff hm)).symm
    cases key with
    | space space =>
      refine (and_iff_left ?_).symm
      cases hfill <;> simp [Definition.product?]
    | symbol m =>
      refine each m (·.value? = none) (.symbol m) (fun hm => ?_) (fun hm => ?_)
      · cases hfill <;> simp_all [Definition.product?]
      · cases hfill <;> simp [Definition.product?, @eq_comm _ n m, hm]
    | attr m kind =>
      cases kind with
      | length | scale | integer =>
        refine each m _ (.attr m _) (fun hm => ?_) (fun hm => ?_)
        · cases hfill <;> simp_all [Definition.product?]
        · cases hfill <;> simp [Definition.product?, @eq_comm _ n m, hm]
      | type | opcode | count | number | defined =>
        exact (iff_of_false id fun hand => hand.1)
  · cases key with
    | symbol m => exact (and_iff_left fun hd => nomatch hd).symm
    | attr m kind => cases kind <;> exact (and_iff_left fun hd => nomatch hd).symm
    | space other =>
      show other.index < spaces.size ∧ ¬ spaces.isResolved other ↔ _
      rw [Spaces.size_of_resolve? hspaces, Spaces.isResolved_of_resolve? hspaces]
      by_cases he : other = space
      · simp [he, Definition.product?]
      · simp [he, Definition.product?, Expects, @eq_comm _ space other]

/-- What is expected can be defined, unless it is a length in terms of its own space. -/
theorem exists_define? {key : Prerequisite} (he : s.Expects key) (hd : d.product? = some key)
    (hself : ∀ space length, d = .space space length → space ∉ length.spaces.map Prod.fst) :
    ∃ t, s.define? d = some t := by
  cases d with
  | nothing => cases hd
  | space space length =>
    cases hd
    obtain ⟨spaces, hspaces⟩ := Spaces.exists_resolve? he.1 he.2 (hself space length rfl)
    exact ⟨_, by rw [define?, hspaces]; rfl⟩
  | value n v =>
    cases hd
    obtain ⟨sym, hsym, hnone⟩ := he
    simp [define?, SymbolTable.setValue?, SymbolTable.update?, hsym, Symbol.isDefined, hnone]
  | length n k =>
    cases hd
    obtain ⟨sym, hsym, hpending⟩ := he
    simp [define?, SymbolTable.setLength?, SymbolTable.update?, hsym, hpending, Slot.fill?]
  | scale n k =>
    cases hd
    obtain ⟨sym, hsym, hpending⟩ := he
    simp [define?, SymbolTable.setScale?, SymbolTable.update?, hsym, hpending, Slot.fill?]
  | integer n k =>
    cases hd
    obtain ⟨sym, hsym, hpending⟩ := he
    simp [define?, SymbolTable.setInteger?, SymbolTable.update?, hsym, hpending, Slot.fill?]

end Assembly

/-! ## 3. Further symbols -/

/-- What is to be filled in of a symbol. -/
def Symbol.owed (sym : Symbol) : List Prerequisite :=
  (if sym.attributes.length = .pending then [.attr sym.name .length] else []) ++
    (if sym.attributes.scale = .pending then [.attr sym.name .scale] else []) ++
    (if sym.attributes.integer = .pending then [.attr sym.name .integer] else []) ++
    if sym.value? = none then [.symbol sym.name] else []

theorem Symbol.nodup_owed (sym : Symbol) : sym.owed.Nodup := by
  unfold owed
  split <;> split <;> split <;> split <;> simp

theorem Symbol.space_not_mem_owed (sym : Symbol) (space : SpaceId) : .space space ∉ sym.owed := by
  unfold owed
  split <;> split <;> split <;> split <;> simp

namespace Assembly

variable {s : Assembly} {sym : Symbol} {symbols : SymbolTable}

/-- What is expected of a symbol is expected under its name. -/
theorem not_expects_owed (hnone : s.symbols.get? sym.name = none) {key : Prerequisite}
    (h : key ∈ sym.owed) : ¬ s.Expects key := by
  unfold Symbol.owed at h
  simp only [List.mem_append, List.mem_ite_nil_right, List.mem_singleton] at h
  rcases h with ((⟨-, rfl⟩ | ⟨-, rfl⟩) | ⟨-, rfl⟩) | ⟨-, rfl⟩ <;>
    simp [Expects, hnone]

/-- A new symbol adds what is to be filled in of it to what is expected. -/
theorem expects_create (h : s.symbols.create? sym = some symbols) (key : Prerequisite) :
    { s with symbols }.Expects key ↔ s.Expects key ∨ key ∈ sym.owed := by
  obtain ⟨hnone, hget⟩ := SymbolTable.create?_eq_some h
  -- Only what belongs to the name of the new symbol can be new.
  have each : ∀ n (P : Symbol → Prop) (key : Prerequisite),
      (n = sym.name → (P sym ↔ key ∈ sym.owed)) → (n ≠ sym.name → key ∉ sym.owed) →
      ((∃ x, symbols.get? n = some x ∧ P x) ↔
        (∃ x, s.symbols.get? n = some x ∧ P x) ∨ key ∈ sym.owed) := by
    intro n P key hsame hdiff
    rw [hget]
    by_cases hn : n = sym.name
    · rw [if_pos hn, hn, hnone]
      simpa using hsame hn
    · rw [if_neg hn]
      exact (or_iff_left (hdiff hn)).symm
  cases key with
  | space space => exact (or_iff_left (sym.space_not_mem_owed space)).symm
  | symbol n =>
    refine each n (·.value? = none) (.symbol n) (fun hn => ?_) (fun hn => ?_)
    · simp [Symbol.owed, hn]
    · simp [Symbol.owed, hn]
  | attr n kind =>
    cases kind with
    | length | scale | integer =>
      refine each n _ (.attr n _) (fun hn => ?_) (fun hn => ?_)
      · simp [Symbol.owed, hn]
      · simp [Symbol.owed, hn]
    | type | opcode | count | number | defined =>
      simp [Expects, Symbol.owed]

end Assembly

end Assembler
