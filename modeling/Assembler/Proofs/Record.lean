import Assembler.Proofs.Operation
import Assembler.Proofs.Outcome
/-!
The records of symbols.

A symbol keeps the name, place, origin and type that it is entered with, and its value and its other attributes
are filled in at most once each (`Turns.persists`). A number that a look-up finds is found ever after
(`Turns.lookup?_eq`).
-/

namespace Assembler

/-! ## 1. Filling in once -/

/-- Whether a slot is the same later, or is pending and gets known. -/
def Slot.Persists {α : Type} (a b : Slot α) : Prop := b = a ∨ a = .pending ∧ ∃ value, b = .known value

theorem Slot.Persists.refl {α : Type} (a : Slot α) : a.Persists a := .inl rfl

theorem Slot.Persists.trans {α : Type} {a b c : Slot α} (h : a.Persists b) (h' : b.Persists c) :
    a.Persists c := by
  rcases h with rfl | ⟨rfl, value, rfl⟩
  · exact h'
  · rcases h' with rfl | ⟨hpending, -⟩
    · exact .inr ⟨rfl, value, rfl⟩
    · cases hpending

/-- Whether a record is the same later but for what is filled in of it. -/
structure Symbol.Persists (sym later : Symbol) : Prop where
  name : later.name = sym.name
  location : later.location = sym.location
  origin : later.attributes.origin = sym.attributes.origin
  type : later.attributes.type = sym.attributes.type
  value : later.value? = sym.value? ∨ sym.value? = none ∧ ∃ v, later.value? = some v
  length : sym.attributes.length.Persists later.attributes.length
  scale : sym.attributes.scale.Persists later.attributes.scale
  integer : sym.attributes.integer.Persists later.attributes.integer

theorem Symbol.Persists.refl (sym : Symbol) : sym.Persists sym :=
  ⟨rfl, rfl, rfl, rfl, .inl rfl, .refl _, .refl _, .refl _⟩

theorem Symbol.Persists.trans {a b c : Symbol} (h : a.Persists b) (h' : b.Persists c) : a.Persists c where
  name := h'.name.trans h.name
  location := h'.location.trans h.location
  origin := h'.origin.trans h.origin
  type := h'.type.trans h.type
  value := by
    rcases h.value with hsame | ⟨hnone, v, hv⟩
    · rw [← hsame]
      exact h'.value
    · rcases h'.value with hsame | ⟨hnone', -⟩
      · exact .inr ⟨hnone, v, hsame.trans hv⟩
      · rw [hv] at hnone'
        cases hnone'
  length := h.length.trans h'.length
  scale := h.scale.trans h'.scale
  integer := h.integer.trans h'.integer

theorem Fills.persists {a : Spaces} {n : Name} {sym sym' : Symbol} {d : Definition} (h : Fills a n sym d sym') :
    sym.Persists sym' := by
  cases h with
  | value v hnone => exact { Symbol.Persists.refl sym with value := .inr ⟨hnone, _, rfl⟩ }
  | length k hpending => exact { Symbol.Persists.refl sym with length := .inr ⟨hpending, k, rfl⟩ }
  | scale k hpending => exact { Symbol.Persists.refl sym with scale := .inr ⟨hpending, k, rfl⟩ }
  | integer k hpending => exact { Symbol.Persists.refl sym with integer := .inr ⟨hpending, k, rfl⟩ }

namespace Assembly

variable {s t u : Assembly}

/-- Whether all records are the same later but for what is filled in of them. -/
def Persists (s t : Assembly) : Prop :=
  ∀ n sym, s.symbols.get? n = some sym → ∃ later, t.symbols.get? n = some later ∧ sym.Persists later

theorem Persists.of_eq (h : t.symbols = s.symbols) : s.Persists t :=
  fun _ sym hsym => ⟨sym, h ▸ hsym, .refl sym⟩

theorem Persists.trans (h : s.Persists t) (h' : t.Persists u) : s.Persists u := by
  intro n sym hsym
  obtain ⟨mid, hmid, hfirst⟩ := h n sym hsym
  obtain ⟨later, hlater, hlast⟩ := h' n mid hmid
  exact ⟨later, hlater, hfirst.trans hlast⟩

theorem persists_define? {d : Definition} (h : s.define? d = some t) : s.Persists t := by
  rcases define?_eq_some h with ⟨n, sym, sym', symbols, hsym, hfills, hget, rfl⟩ | ⟨_, _, _, -, -, rfl⟩
  · intro m other hother
    by_cases hm : m = n
    · subst hm
      rw [hsym] at hother
      cases hother
      exact ⟨sym', (hget m).trans (if_pos rfl), hfills.persists⟩
    · exact ⟨other, ((hget m).trans (if_neg hm)).trans hother, .refl other⟩
  · exact .of_eq rfl

theorem Does.persists {job : Job} (h : s.Does job t) : s.Persists t := by
  obtain ⟨u, d, halike, -, -, rfl⟩ := h.exists_establish
  refine (Persists.of_eq halike.symbols).trans ?_
  unfold establish
  split
  · exact .of_eq rfl
  · rename_i v hv
    refine (persists_define? hv).trans ?_
    split <;> exact .of_eq rfl

/-- A new symbol leaves those alone that there are. -/
theorem persists_create {sym : Symbol} {symbols : SymbolTable} (h : s.symbols.create? sym = some symbols) :
    s.Persists { s with symbols } := by
  obtain ⟨hnone, hget⟩ := SymbolTable.create?_eq_some h
  intro n other hother
  refine ⟨other, ((hget n).trans (if_neg ?_)).trans hother, .refl other⟩
  rintro rfl
  rw [hnone] at hother
  cases hother

end Assembly

open Assembly

variable {m m' : Moment}

theorem Step.persists (h : Step m m') : m.state.Persists m'.state := by
  cases h with
  | cascade h =>
    cases h with
    | @settle s hand id? job phase =>
      rcases settle_outcome s id? job with hdoes | ⟨waiting, -, -, heq⟩
      · exact hdoes.persists
      · refine .of_eq ?_
        show (s.settle id? job).symbols = s.symbols
        rw [heq]
        cases id? <;> rfl
    | pick | skip | stall | resume => exact .of_eq rfl
  | progress h =>
    cases h with
    | report d => exact .of_eq (alike_addDiagnostic _ d).symbols
    | enter hsym => exact (persists_create hsym).trans (.of_eq (alike_foldl_wake _ _).symbols)
    | arrange | check | defineMacro | defineVariable => exact .of_eq rfl
  | ending h =>
    cases h with
    | explain => exact .of_eq (alike_explain _ _ _).symbols
    | conclude explained _ _ _ hexplained => exact (conclude_outcome hexplained _).persists
    | place | close | choose | clear => exact .of_eq rfl

theorem Turns.persists (h : Run Turn m m') : m.state.Persists m'.state := by
  refine h.keeps (P := fun x => m.state.Persists x.state) (fun _ _ hturn hx => hx.trans ?_) (.of_eq rfl)
  cases hturn with
  | step hstep => exact hstep.persists
  | take => exact .of_eq rfl

/-! ## 2. Looking up -/

/-- A value without open spaces is the same later. -/
theorem Assembly.lookup?_later {s t : Assembly} (hst : s.Earlier t) (ha : s.layout.spaces.Acyclic)
    (hb : t.layout.spaces.Acyclic) {n : Name} {v : Int32} (h : s.lookup? n = some v) : t.lookup? n = some v := by
  obtain ⟨sym, hsym, h⟩ := Option.bind_eq_some_iff.mp h
  obtain ⟨value, hvalue, h⟩ := Option.bind_eq_some_iff.mp h
  obtain ⟨stored, hstored, rfl⟩ := Option.map_eq_some_iff.mp hvalue
  obtain ⟨later, hlater, hle⟩ := hst.symbols n sym hsym
  refine Option.bind_eq_some_iff.mpr ⟨later, hlater, Option.bind_eq_some_iff.mpr
    ⟨stored.normalize t.layout.spaces, by rw [valueOf?, hle.value_eq hstored]; rfl, ?_⟩⟩
  cases stored with
  | absolute k => exact h
  | relocatable a =>
    dsimp only [Value.normalize] at h ⊢
    split at h
    · rename_i hsettled
      rw [Address.normalize_eq_of_isEmpty hst.spaces ha hb hsettled.2]
      exact (if_pos hsettled).trans h
    · cases h

theorem Turns.lookup?_eq (hv : m.Valid) (h : Run Turn m m') {n : Name} {v : Int32}
    (hlookup : m.state.lookup? n = some v) : m'.state.lookup? n = some v :=
  lookup?_later (Turns.earlier h) hv.wellFormed.acyclic (hv.turns h).wellFormed.acyclic hlookup

end Assembler
